/-
The program: looks at the files that an answer depends on, asks the library for the answer, and prints or writes it.
-/
import StubTemplate.CommandLine.Run

namespace StubTemplate.Program

open CommandLine

def lookAt (path : String) : IO Entry := do
  match ← (IO.FS.realPath path).toBaseIO with
  | .error _ => return .missing
  | .ok _ =>
    match ← (IO.FS.readBinFile path).toBaseIO with
    | .ok content => return .file content
    | .error _ => return .blocked

/-- files as far as they have been looked at -/
def known (seen : List (String × Entry)) : Files := fun path =>
  match seen.find? (·.1 == path) with
  | some entry => entry.2
  | none => .missing

/-- looks at the files a request depends on: the configuration, then the template, then what its placeholders name -/
def gather (request : Request) (here : String) (stdin : ByteArray) (log : String → IO Unit) : IO Files := do
  let mut seen := []
  for _ in [0:3] do
    for path in request.lookups (known seen) here stdin do
      if !(seen.any fun entry : String × Entry => entry.1 == path) then
        log path
        seen := (path, ← lookAt path) :: seen
  return known seen

/-- all that standard input holds -/
partial def readAll (stream : IO.FS.Stream) (before : ByteArray) : IO ByteArray := do
  let bytes ← stream.read 65536
  if bytes.isEmpty then return before else readAll stream (before ++ bytes)

def report : Failure → String
  | .usage usage => "error: " ++ usage.message ++ "\n"
  | .filling e =>
    "Error: " ++ e.code ++ "\n\n  " ++ e.message ++ "\n" ++ (e.help.map fun text => "  help: " ++ text ++ "\n").getD ""
  | .templateUnreadable path => "error: unable to read template: " ++ path ++ "\n"
  | .outputNotWritten path => "error: unable to write: " ++ path ++ "\n"

/-- prints an outcome and gives its exit code -/
def finishWith (outcome : Outcome) : IO UInt32 := do
  IO.print outcome.stdout
  IO.eprint outcome.stderr
  if let some failure := outcome.failure then IO.eprint (report failure)
  return outcome.code

def run (words : List String) : IO UInt32 := do
  let noColor := (← IO.getEnv "NO_COLOR").isSome
  let here ←
    match ← IO.currentDir.toBaseIO with
    | .ok directory => pure directory.toString
    | .error _ => pure "."
  let stdin ←
    match read words with
    | .ok (.request { command := some (.inject template _ _), .. }) =>
      if isStdin template then readAll (← IO.getStdin) .empty else pure .empty
    | _ => pure .empty
  let files ←
    match read words with
    | .ok (.request request) =>
      gather request here stdin fun path => if request.verbose then IO.eprintln ("looking at " ++ path) else pure ()
    | _ => pure (known [])
  let (answer, color) := answer files here stdin noColor words
  match answer with
  | .save path text =>
    match ← (IO.FS.writeFile path text).toBaseIO with
    | .ok _ => finishWith (answer.outcome color)
    | .error _ => finishWith (failed (.outputNotWritten path))
  | answer => finishWith (answer.outcome color)

end StubTemplate.Program

def main (words : List String) : IO UInt32 := StubTemplate.Program.run words
