/-
The causes for which filling a template fails.

Each cause has a code, a message, and for most of them a hint on what to write instead. `hasSource` tells the causes
that rest on a failure below them: the operating system's, or that of a reader of bytes or JSON.
-/

namespace StubTemplate

/-- why filling a template, or getting ready for it, fails -/
inductive Error where
  /-- the configuration file is not UTF-8 -/
  | configNotText
  /-- the configuration file does not hold a configuration -/
  | configInvalid (reason : String)
  /-- an element of an array has `=` where `=>` is meant -/
  | singleEquals
  /-- a key is neither a text nor an integer -/
  | keyNotAllowed
  | processorNameEmpty
  | processorNameInvalid (name : String)
  | processorNameTaken (name : String)
  | processorUnknown (name : String)
  /-- a processor that reads a file got no arguments -/
  | filenameMissing (processor : String)
  /-- the file name is a list or a map -/
  | filenameNotScalar
  | fileMissing (path : String)
  | fileUnreadable (path : String)
  | fileNotText (path : String)
  /-- the file is not JSON, or, if `readable`, JSON that is no object or array -/
  | jsonInvalid (filename : String) (readable : Bool)
  /-- the characters to leave alone are not given as a list -/
  | ignoredNotList
  /-- one of the characters to leave alone is a list or a map -/
  | ignoredNotScalar
  deriving DecidableEq, Inhabited

namespace Error

def code : Error → String
  | .configNotText => "stubfill::io_error"
  | .configInvalid _ => "stubfill::config_parse"
  | .singleEquals => "stubfill::malformed_associative_syntax"
  | .keyNotAllowed => "stubfill::invalid_array_key"
  | .processorNameEmpty => "stubfill::empty_processor_name"
  | .processorNameInvalid _ => "stubfill::invalid_processor_name"
  | .processorNameTaken _ => "stubfill::duplicate_processor_name"
  | .processorUnknown _ => "stubfill::unsupported_processor"
  | .filenameMissing _ => "stubfill::missing_filename"
  | .filenameNotScalar => "stubfill::filename_not_scalar"
  | .fileMissing _ => "stubfill::file_not_found"
  | .fileUnreadable _ => "stubfill::unreadable_file"
  | .fileNotText _ => "stubfill::non_utf8_file"
  | .jsonInvalid _ _ => "stubfill::invalid_json"
  | .ignoredNotList => "stubfill::ignored_characters_not_array"
  | .ignoredNotScalar => "stubfill::ignored_character_not_scalar"

/-- what a cause says, with the name or path that it is about -/
def message : Error → String
  | .configNotText => "stream did not contain valid UTF-8"
  | .configInvalid reason => "failed to parse config file: " ++ reason
  | .singleEquals => "Invalid associative array syntax: use \"=>\" instead of \"=\""
  | .keyNotAllowed => "Array keys must be strings or integers"
  | .processorNameEmpty => "Processor name cannot be empty"
  | .processorNameInvalid name =>
    "Invalid processor name \"" ++ name ++ "\". Processor names must start with a letter, contain only "
      ++ "lowercase letters, numbers, underscores, and dots, and end with a letter or number."
  | .processorNameTaken name => "Duplicate processor name \"" ++ name ++ "\" detected"
  | .processorUnknown name => "Unsupported processor \"" ++ name ++ "\""
  | .filenameMissing processor => "Missing filename argument for processor \"" ++ processor ++ "\""
  | .filenameNotScalar => "Filename argument must be a scalar value"
  | .fileMissing path => "File not found: " ++ path
  | .fileUnreadable path => "Unable to read file: " ++ path
  | .fileNotText path => "File is not valid UTF-8 text: " ++ path
  | .jsonInvalid filename _ => "Invalid JSON in file: " ++ filename
  | .ignoredNotList => "Ignored characters must be an array"
  | .ignoredNotScalar => "Ignored characters must contain only scalar values"

def help : Error → Option String
  | .configInvalid _ => some "check that stubfill.toml is valid TOML with `stubs_directory` and/or [processors]"
  | .singleEquals => some "write keyed entries as `['key' => 'value']`"
  | .keyNotAllowed => some "quote the key or use an integer, `true`, `null` and floats cannot be keys"
  | .processorNameTaken _ => some "each processor registered with a registry must have a unique name"
  | .processorUnknown _ => some "run `stubfill processors` to list the registered processors"
  | .filenameMissing _ => some "file-based processors take the file path as their first argument"
  | .fileNotText _ => some "processors read their files as UTF-8 text, re-encode the file as UTF-8"
  | .jsonInvalid _ _ => some "the file must contain a JSON object or array"
  | .ignoredNotList => some "pass the characters as a list, e.g. `['@', '.']`"
  | _ => none

/-- whether a failure of another kind lies under the cause -/
def hasSource : Error → Bool
  | .fileUnreadable _ | .fileNotText _ => true
  | .jsonInvalid _ readable => !readable
  | _ => false

end Error

end StubTemplate
