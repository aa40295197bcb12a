/-
Configuration: where the files of placeholders are, and which processors are left out.

It is read from the first of three candidates in the project's root directory that is a file. Fields that it does not
know it ignores; fields of the wrong form make it invalid.
-/
import StubTemplate.Registry
import StubTemplate.Toml.Reader

namespace StubTemplate

structure Config where
  /-- the directory with the files of placeholders, seen from the project's root -/
  stubsDirectory : Option String
  /-- the processors to leave out -/
  disabled : List String

namespace Config

/-- what holds when there is no configuration file -/
def default : Config := ⟨none, []⟩

/-- where a configuration file may be, the first found counting -/
def candidates : List String := ["stubfill.toml", ".stubfill.toml", ".config/stubfill.toml"]

/-- a path seen from a directory; an absolute path is its own -/
def join (directory path : String) : String :=
  if path.toList.head? = some '/' then path
  else if directory = "" ∨ directory.toList.getLast? = some '/' then directory ++ path
  else directory ++ "/" ++ path

def isFile (files : Files) (path : String) : Bool :=
  match files path with
  | .file _ => true
  | _ => false

def locate (files : Files) (root : String) : Option String :=
  (candidates.map (join root)).find? (isFile files)

/-- the texts of an array that holds texts alone -/
def texts? : Toml → Option (List String)
  | .array items => items.mapM fun
    | .str text => some text
    | _ => none
  | _ => none

def disabledNames : Option Toml → Except String (List String)
  | none => .ok []
  | some field =>
    match texts? field with
    | some names => .ok names
    | none => .error "`disabled` is not a list of strings"

/--
The disabled processors, from the value of `processors`: a table, or an array with the table's fields in order. A date or
time counts as a table without any field that is known here.
-/
def disabledOf : Toml → Except String (List String)
  | .table fields => disabledNames (Toml.field? fields "disabled")
  | .array items => disabledNames items.head?
  | .moment => disabledNames none
  | _ => .error "`processors` is not a table"

def ofFields (fields : List (String × Toml)) : Except String Config := do
  let stubsDirectory ←
    match Toml.field? fields "stubs_directory" with
    | none => .ok none
    | some (.str text) => .ok (some text)
    | some _ => .error "`stubs_directory` is not a string"
  let disabled ←
    match Toml.field? fields "processors" with
    | none => .ok []
    | some value => disabledOf value
  return ⟨stubsDirectory, disabled⟩

def ofText (text : String) : Except Error Config :=
  match Toml.read? text.toList with
  | none => .error (.configInvalid "not a TOML document")
  | some fields => (ofFields fields).mapError .configInvalid

/-- the configuration of a project, if it has a configuration file -/
def load (files : Files) (root : String) : Except Error (Option Config) :=
  match (locate files root).map files with
  | some (.file content) =>
    match String.fromUTF8? content with
    | none => .error .configNotText
    | some text => (ofText text).map some
  | _ => .ok none

def stubsDir (c : Config) (root : String) : String :=
  match c.stubsDirectory with
  | some directory => join root directory
  | none => root

/-- the processors at hand without the disabled ones; it is an error to disable one that is not at hand -/
def registry (c : Config) : Except Error Registry :=
  match c.disabled.find? fun name => !Processor.builtins.any (·.name == name) with
  | some unknown => .error (.processorUnknown unknown)
  | none => Registry.ofProcessors (Processor.builtins.filter fun p => !c.disabled.contains p.name)

end Config

end StubTemplate
