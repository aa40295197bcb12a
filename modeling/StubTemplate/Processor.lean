/-
Processors: what a placeholder can call by name.

A processor gets the files, the directory its template belongs to and the arguments, and gives a text or fails. Most
read the file that their first argument names and turn its text into another; `ofTransform` is their common form.
-/
import StubTemplate.FileTree
import StubTemplate.QueryString

namespace StubTemplate

/-- something that makes a text from arguments, under a name -/
structure Processor where
  name : String
  process : Files → (base : String) → (arguments : List Value) → Except Error String

namespace Processor

/-- the path of the file that the first argument names, in the directory `base` -/
def filePath (base name : String) (arguments : List Value) : Except Error String :=
  match arguments with
  | [] => .error (.filenameMissing name)
  | first :: _ =>
    match first.text? with
    | none => .error .filenameNotScalar
    | some filename => .ok (base ++ "/" ++ filename)

def readText (files : Files) (path : String) : Except Error String :=
  match files path with
  | .missing => .error (.fileMissing path)
  | .blocked => .error (.fileUnreadable path)
  | .file content =>
    match String.fromUTF8? content with
    | some text => .ok text
    | none => .error (.fileNotText path)

/-- the processor that reads the file its first argument names and transforms its text -/
def ofTransform (name : String) (transform : String → List Value → Except Error String) : Processor where
  name := name
  process files base arguments := do
    let path ← filePath base name arguments
    let content ← readText files path
    transform content arguments

def flattenText : Processor :=
  ofTransform "flatten_text" fun content _ => .ok (String.ofList (Text.flatten content.toList))

def queryString : Processor :=
  ofTransform "json_to_url_encoded_query_string" QueryString.ofText

/-- the processors that are always at hand, in order -/
def builtins : List Processor := [flattenText, queryString]

end Processor

end StubTemplate
