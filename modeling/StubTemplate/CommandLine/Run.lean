/-
Running a command: from the files, the standard input and a command line to an answer.

`answer` decides everything but whether the result can be written; `run` also writes it to a tree of files. A command
that fails prints nothing on standard output and writes nothing. `lookups` lists the paths that an answer depends on,
as far as the files known so far tell. The root of the project is the path `here` of the working directory unless the
command line names another.
-/
import StubTemplate.CommandLine.Options
import StubTemplate.Config
import StubTemplate.Injection

namespace StubTemplate.CommandLine

/-- why a command fails -/
inductive Failure where
  | usage (usage : Usage)
  | filling (error : Error)
  /-- the template cannot be read -/
  | templateUnreadable (path : String)
  /-- the result cannot be written -/
  | outputNotWritten (path : String)

/-- what a command comes to -/
inductive Answer where
  /-- a text for standard output -/
  | print (text : String)
  /-- a text for a file -/
  | save (path text : String)
  | fail (failure : Failure)
  /-- there is no command -/
  | nothing

def versionText : String := "stubfill_cli 0.3.0\n"

def helpText : String :=
  "Fill `%processor(args)%` placeholders in stub and fixture files.\n\n"
    ++ "Usage: stubfill [OPTIONS] [COMMAND]\n\n"
    ++ "Commands:\n"
    ++ "  inject TEMPLATE    Replace every placeholder in a template file, `-` for standard input\n"
    ++ "  parse ARGUMENTS    Parse a placeholder argument list and print it as JSON\n"
    ++ "  processors         List the processors available to placeholders\n\n"
    ++ "Options:\n"
    ++ "  -p, --path PATH       Project root directory, where `stubfill.toml` is discovered\n"
    ++ "  -v, --verbose         Enable verbose output\n"
    ++ "      --no-color        Disable colored output\n"
    ++ "      --stubs-dir DIR   Directory of the placeholders' files (inject)\n"
    ++ "  -o, --output FILE     Write the result to a file (inject)\n"
    ++ "  -h, --help            Print help\n"
    ++ "  -V, --version         Print version\n"

def noCommandText : String := "No subcommand specified. Run `stubfill --help` for usage.\n"

/-- a text between two control sequences, if colours are on -/
def paint (color : Bool) (on off text : String) : String :=
  if color then "\x1b[" ++ on ++ "m" ++ text ++ "\x1b[" ++ off ++ "m" else text

def Request.rootDir (r : Request) (here : String) : String := r.root.getD here

def configOf (files : Files) (root : String) : Except Error Config :=
  (Config.load files root).map fun config => config.getD .default

/-- whether a path is `-`, which stands for standard input; a slash or `.` after it changes nothing -/
def isStdin (path : String) : Bool :=
  match FileTree.components path with
  | "-" :: rest => rest.all fun name => name == "" || name == "."
  | _ => false

def readTemplate (files : Files) (stdin : ByteArray) (path : String) : Option String :=
  if isStdin path then String.fromUTF8? stdin
  else
    match files path with
    | .file content => String.fromUTF8? content
    | _ => none

def inject (files : Files) (stdin : ByteArray) (root template : String) (stubsDir : Option String) :
    Except Failure String := do
  let config ← (configOf files root).mapError .filling
  let registry ← config.registry.mapError .filling
  match readTemplate files stdin template with
  | none => throw (.templateUnreadable template)
  | some content =>
    (registry.inject files (stubsDir.getD (config.stubsDir root)) content).result.mapError .filling

/-- the values of an argument text as indented JSON -/
def showArguments (arguments : String) : Except Error String := do
  let values ← Argument.parse arguments.toList
  return String.ofList (Json.indented 0 (Json.array (Value.itemsToJson values)) ++ ['\n'])

def listProcessors (files : Files) (root : String) (color : Bool) : Except Error String := do
  let config ← configOf files root
  let registry ← config.registry
  if registry.isEmpty then return paint color "2" "0" "No processors are enabled." ++ "\n"
  return String.join (registry.names.map (· ++ "\n"))

def Request.answer (r : Request) (files : Files) (here : String) (stdin : ByteArray) (color : Bool) : Answer :=
  match r.command with
  | none => .nothing
  | some (.inject template stubsDir output) =>
    match inject files stdin (r.rootDir here) template stubsDir, output with
    | .error failure, _ => .fail failure
    | .ok text, none => .print text
    | .ok text, some path => .save path text
  | some (.parse arguments) =>
    match showArguments arguments with
    | .error e => .fail (.filling e)
    | .ok text => .print text
  | some .processors =>
    match listProcessors files (r.rootDir here) color with
    | .error e => .fail (.filling e)
    | .ok text => .print text

/-- what a line comes to, and whether it may use colours -/
def answer (files : Files) (here : String) (stdin : ByteArray) (noColor : Bool) (words : List String) : Answer × Bool :=
  match read words with
  | .error usage => (.fail (.usage usage), false)
  | .ok .version => (.print versionText, false)
  | .ok .help => (.print helpText, false)
  | .ok (.request r) =>
    let color := !r.noColor && !noColor
    (r.answer files here stdin color, color)

/-- the end of a run: the exit code, what was printed, and the failure if there is one -/
structure Outcome where
  code : UInt32
  stdout : String
  stderr : String
  failure : Option Failure

def savedText (color : Bool) (path : String) : String :=
  paint color "32" "39" "Wrote" ++ " " ++ path ++ "\n"

def failed (failure : Failure) : Outcome := ⟨2, "", "", some failure⟩

/-- the outcome of an answer, when a file that it asks for has been written -/
def Answer.outcome (color : Bool) : Answer → Outcome
  | .print text => ⟨0, text, "", none⟩
  | .save path _ => ⟨0, "", savedText color path, none⟩
  | .fail failure => failed failure
  | .nothing => ⟨1, "", noCommandText, none⟩

def run (tree : FileTree) (stdin : ByteArray) (noColor : Bool) (words : List String) : Outcome × FileTree :=
  let (answer, color) := answer tree.look tree.homePath stdin noColor words
  match answer with
  | .save path text =>
    match tree.write path text.toUTF8 with
    | some written => (answer.outcome color, written)
    | none => (failed (.outputNotWritten path), tree)
  | answer => (answer.outcome color, tree)

/-- the paths of the files that the placeholders of a template name -/
def filesOf (base template : String) : List String :=
  (Template.ofText template.toList).placeholders.filterMap fun p =>
    match Argument.parse p.arguments with
    | .ok arguments => (Processor.filePath base (String.ofList p.name) arguments).toOption
    | .error _ => none

/-- the paths that the answer to a request depends on, as far as `files` tells -/
def Request.lookups (r : Request) (files : Files) (here : String) (stdin : ByteArray) : List String :=
  let candidates := Config.candidates.map (Config.join (r.rootDir here))
  match r.command with
  | some (.inject template stubsDir _) =>
    let base := stubsDir.getD
      (match configOf files (r.rootDir here) with
        | .ok config => config.stubsDir (r.rootDir here)
        | .error _ => r.rootDir here)
    candidates ++ [template] ++ filesOf base ((readTemplate files stdin template).getD "")
  | some .processors => candidates
  | _ => []

end StubTemplate.CommandLine
