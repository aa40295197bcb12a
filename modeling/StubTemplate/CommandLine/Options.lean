/-
Command lines: options, a command, and its arguments.

Options of the whole program may stand before or after the command's name, and one given after it counts more. An
option may be given once on each side. `--` ends the options of a command. A call for help takes the name of a command
and no options.
-/

namespace StubTemplate.CommandLine

/-- what the program is asked to do -/
inductive Command where
  /-- fill a template, with the directory of its files and the path of the result if they are given -/
  | inject (template : String) (stubsDir output : Option String)
  /-- show how an argument text is read -/
  | parse (arguments : String)
  /-- list the processors -/
  | processors

/-- a command with the options of the whole program -/
structure Request where
  root : Option String
  verbose : Bool
  noColor : Bool
  /-- what to do; `none` when no command is given -/
  command : Option Command

inductive Reading where
  | request (request : Request)
  | version
  | help

/-- why a command line is refused -/
inductive Usage where
  | unknownOption (text : String)
  | unknownCommand (text : String)
  | repeatedOption (name : String)
  | valueMissing (name : String)
  | valueEmpty (name : String)
  | valueNotAllowed (name : String)
  | argumentMissing (name : String)
  | argumentUnexpected (text : String)

def Usage.message : Usage → String
  | .unknownOption text => "unexpected option '" ++ text ++ "'"
  | .unknownCommand text => "unrecognized subcommand '" ++ text ++ "'"
  | .repeatedOption name => "the option '--" ++ name ++ "' cannot be used multiple times"
  | .valueMissing name => "a value is required for '--" ++ name ++ "'"
  | .valueEmpty name => "an empty value is not allowed for '" ++ name ++ "'"
  | .valueNotAllowed name => "no value is allowed for '--" ++ name ++ "'"
  | .argumentMissing name => "the argument '" ++ name ++ "' is required"
  | .argumentUnexpected text => "unexpected argument '" ++ text ++ "'"

/-- what giving an option means -/
inductive Effect where
  /-- it takes a path -/
  | path
  /-- it is switched on -/
  | switch
  | version
  | help
  deriving DecidableEq

structure Spec where
  long : String
  short : Option Char
  effect : Effect

def globalOptions : List Spec :=
  [⟨"path", some 'p', .path⟩, ⟨"verbose", some 'v', .switch⟩, ⟨"no-color", none, .switch⟩,
    ⟨"help", some 'h', .help⟩]

/-- the options that come before the command -/
def topOptions : List Spec := globalOptions ++ [⟨"version", some 'V', .version⟩]

def injectOptions : List Spec := globalOptions ++ [⟨"stubs-dir", none, .path⟩, ⟨"output", some 'o', .path⟩]

structure Positional where
  name : String
  /-- whether it is a path, which cannot be empty -/
  isPath : Bool

/-- what has been read on one side of the command -/
structure Given where
  /-- the options, with their values; that of a switch is empty -/
  options : List (String × String)
  arguments : List String
  /-- the last option, if it takes a path, with its value once that has come; what follows settles it -/
  pending : Option (String × Option String)

namespace Given

def empty : Given := ⟨[], [], none⟩

def value? (g : Given) (name : String) : Option String :=
  (g.options.find? (·.1 == name)).map Prod.snd

def has (g : Given) (name : String) : Bool := (g.value? name).isSome

/-- notes an option that may be given once -/
def addOption (g : Given) (name value : String) : Except Usage Given :=
  if g.has name then .error (.repeatedOption name) else .ok { g with options := g.options ++ [(name, value)] }

def addPath (g : Given) (name value : String) : Except Usage Given :=
  if value = "" then .error (.valueEmpty name) else g.addOption name value

/-- notes the option that is pending; it needs a value -/
def settle (g : Given) : Except Usage Given :=
  match g.pending with
  | none => .ok g
  | some (name, none) => .error (.valueMissing name)
  | some (name, some value) => { g with pending := none }.addPath name value

def addArgument (positionals : List Positional) (g : Given) (word : String) : Except Usage Given :=
  match positionals[g.arguments.length]? with
  | none => .error (.argumentUnexpected word)
  | some positional =>
    if positional.isPath && word == "" then .error (.valueEmpty positional.name)
    else .ok { g with arguments := g.arguments ++ [word] }

end Given

/-- the outcome of a word: the line goes on, or asks for something at once -/
inductive Progress where
  | more (given : Given)
  | stop (reading : Reading)

/-- an option by its long name, with the value attached by `=` if there is one -/
def readLong (specs : List Spec) (g : Given) (name : String) (value : Option String) : Except Usage Progress :=
  match specs.find? (·.long == name), value with
  | none, _ => .error (.unknownOption ("--" ++ name))
  | some ⟨_, _, .path⟩, some value => (g.addPath name value).map .more
  | some ⟨_, _, .path⟩, none => .ok (.more { g with pending := some (name, none) })
  | some _, some _ => .error (.valueNotAllowed name)
  | some ⟨_, _, .switch⟩, none => (g.addOption name "").map .more
  | some ⟨_, _, .version⟩, none => .ok (.stop .version)
  | some ⟨_, _, .help⟩, none => .ok (.stop .help)

/-- options by their short names, one after the other; what follows one that takes a path is its value -/
def readShort (specs : List Spec) (g : Given) : List Char → Except Usage Progress
  | [] => .ok (.more g)
  | c :: rest =>
    match specs.find? (·.short == some c) with
    | none => .error (.unknownOption (String.ofList ['-', c]))
    | some ⟨name, _, .path⟩ =>
      match rest with
      | [] => readLong specs g name none
      | '=' :: value => (g.addPath name (String.ofList value)).map .more
      | value => (g.addPath name (String.ofList value)).map .more
    | some ⟨name, _, .switch⟩ => do readShort specs (← g.addOption name "") rest
    | some ⟨_, _, .version⟩ => .ok (.stop .version)
    | some ⟨_, _, .help⟩ => .ok (.stop .help)

def readOption (specs : List Spec) (g : Given) (word : List Char) : Except Usage Progress := do
  let g ← g.settle
  match word with
  | '-' :: '-' :: long =>
    let name := String.ofList (long.takeWhile (· != '='))
    match long.dropWhile (· != '=') with
    | [] => readLong specs g name none
    | _ :: value => readLong specs g name (some (String.ofList value))
  | word => readShort specs g (word.drop 1)

def isOption (word : String) : Bool :=
  match word.toList with
  | '-' :: _ :: _ => true
  | _ => false

/-- the words after a command's name, with the arguments that the command has -/
def readCommand (specs : List Spec) (positionals : List Positional) (g : Given) : List String → Except Usage Progress
  | [] => g.settle.map .more
  | word :: rest =>
    if word = "--" then do
      return .more (← rest.foldlM (Given.addArgument positionals) (← g.settle))
    else if isOption word then do
      match ← readOption specs g word.toList with
      | .more g => readCommand specs positionals g rest
      | .stop reading => return .stop reading
    else
      match g.pending with
      | some (name, none) => readCommand specs positionals { g with pending := some (name, some word) } rest
      | _ => do readCommand specs positionals (← (← g.settle).addArgument positionals word) rest

def requestOf (before after : Given) (command : Option Command) : Reading :=
  .request {
    root := (after.value? "path").or (before.value? "path")
    verbose := before.has "verbose" || after.has "verbose"
    noColor := before.has "no-color" || after.has "no-color"
    command := command }

def commandNames : List String := ["inject", "parse", "processors", "help"]

/-- a call for help, from the words after it: it may name one command; any other word, even an option, is refused -/
def readHelp : List String → Except Usage Reading
  | [] => .ok .help
  | name :: rest =>
    match commandNames.contains name, rest with
    | false, _ => .error (.unknownCommand name)
    | true, [] => .ok .help
    | true, word :: _ => .error (.unknownCommand word)

/-- the command of a name, from the words after it; help is given even if the option before it turns out wrong -/
def readNamed (before : Given) (name : String) (words : List String) : Except Usage Reading :=
  match name with
  | "inject" => do
    match ← readCommand injectOptions [⟨"TEMPLATE", true⟩] .empty words with
    | .stop reading => return reading
    | .more g =>
      match g.arguments with
      | [] => throw (.argumentMissing "TEMPLATE")
      | template :: _ =>
        return requestOf (← before.settle) g (some (.inject template (g.value? "stubs-dir") (g.value? "output")))
  | "parse" => do
    match ← readCommand globalOptions [⟨"ARGUMENTS", false⟩] .empty words with
    | .stop reading => return reading
    | .more g =>
      match g.arguments with
      | [] => throw (.argumentMissing "ARGUMENTS")
      | arguments :: _ => return requestOf (← before.settle) g (some (.parse arguments))
  | "processors" => do
    match ← readCommand globalOptions [] .empty words with
    | .stop reading => return reading
    | .more g => return requestOf (← before.settle) g (some .processors)
  | "help" => readHelp words
  | name => .error (.unknownCommand name)

/-- the words of a line, when some options have been read -/
def readFrom (g : Given) : List String → Except Usage Reading
  | [] => do return requestOf (← g.settle) .empty none
  | word :: rest =>
    if word = "--" then do
      let g ← g.settle
      match rest with
      | [] => return requestOf g .empty none
      | extra :: _ => throw (.argumentUnexpected extra)
    else if isOption word then do
      match ← readOption topOptions g word.toList with
      | .more g => readFrom g rest
      | .stop reading => return reading
    else
      match g.pending with
      | some (name, none) => readFrom { g with pending := some (name, some word) } rest
      | _ => readNamed g word rest

def read (words : List String) : Except Usage Reading := readFrom .empty words

end StubTemplate.CommandLine
