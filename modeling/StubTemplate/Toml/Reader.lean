/-
Reading a TOML document: lines with a key and a value, headers, comments.

Arrays and inline tables may stand at most 79 deep in one another, and a key has at most 79 parts. A line takes one step
and at least one character, a value in a line at most two steps for each character, so the length of the text bounds the
number of steps.
-/
import StubTemplate.Toml.Scalar

namespace StubTemplate.Toml

/-- how deep values may stand in one another, and how many parts a key may have -/
def deepest : Nat := 79

/-- drops blanks, line ends and comments between the items of an array; `comment` says that a comment has begun -/
def skipFiller (comment : Bool) : List Char → Option (List Char)
  | [] => if comment then none else some []
  | '\r' :: '\n' :: rest => skipFiller false rest
  | '\n' :: rest => skipFiller false rest
  | c :: rest =>
    if comment then if isTextChar c then skipFiller true rest else none
    else if isSpace c then skipFiller false rest
    else if c = '#' then skipFiller true rest
    else some (c :: rest)

def filler : Scan Unit := fun s => (skipFiller false s).map ((), ·)

/-- a line end, or the end of the text -/
def newline : Scan Unit
  | [] => some ((), [])
  | '\n' :: rest => some ((), rest)
  | '\r' :: '\n' :: rest => some ((), rest)
  | _ => none

def lineEnd : Scan Unit := do
  Scan.spaces
  if ← Scan.optional '#' then modify (List.dropWhile isTextChar)
  newline

def isBare (c : Char) : Bool := c.isAlphanum || c == '-' || c == '_'

def keyPart : Scan String
  | '"' :: rest => (basicString rest).map fun read => (String.ofList read.1, read.2)
  | '\x27' :: rest => (literalString rest).map fun read => (String.ofList read.1, read.2)
  | s =>
    if s.head?.any isBare then some (String.ofList (s.takeWhile isBare), s.dropWhile isBare) else none

/-- the parts of a key between points, at most `bound` of them -/
def keyParts : (bound : Nat) → Scan (List String)
  | 0 => failure
  | bound + 1 => do
    Scan.spaces
    let part ← keyPart
    Scan.spaces
    if ← Scan.optional '.' then return part :: (← keyParts bound) else return [part]

/-- a key: the path to its table, and its last part -/
def key : Scan (List String × String) := do
  let parts ← keyParts deepest
  return (parts.dropLast, parts.getLast?.getD "")

mutual

/-- a value in at most `steps` steps, in which others may stand `depth` deep -/
def value : (steps depth : Nat) → Scan Toml
  | 0, _ => failure
  | steps + 1, depth => do
    let next ← Scan.peek
    if next = some '[' then
      if depth = 0 then failure
      modify List.tail
      return .array (← items steps (depth - 1))
    else if next = some '\x7b' then
      if depth = 0 then failure
      modify List.tail
      Scan.spaces
      if ← Scan.optional '\x7d' then return .table []
      return .table (ofItems (← fields steps (depth - 1) []))
    else scalar

def items : (steps depth : Nat) → Scan (List Toml)
  | 0, _ => failure
  | steps + 1, depth => do
    filler
    if ← Scan.optional ']' then return []
    let item ← value steps depth
    filler
    if ← Scan.optional ',' then return item :: (← items steps depth)
    Scan.expect ']'
    return [item]

/-- the fields of an inline table up to its brace, added to those before -/
def fields : (steps depth : Nat) → Items → Scan Items
  | 0, _, _ => failure
  | steps + 1, depth, before => do
    let (path, name) ← key
    Scan.expect '='
    Scan.spaces
    let content ← value steps depth
    Scan.spaces
    let now ← StateT.lift (defineAt path name content before)
    if ← Scan.optional ',' then fields steps depth now
    else
      Scan.expect '\x7d'
      return now

end

/-- a document in the making: the tables so far, and the path of the header that lines stand under -/
structure Document where
  items : Items
  header : List String

namespace Document

def readHeader (doc : Document) : Scan Document := do
  let double ← Scan.optional '['
  let (path, name) ← key
  Scan.expect ']'
  if double then Scan.expect ']'
  lineEnd
  let items ← StateT.lift ((if double then openElement path name else openTable path name) doc.items)
  return ⟨items, path ++ [name]⟩

def readField (doc : Document) (steps : Nat) : Scan Document := do
  let (path, name) ← key
  Scan.expect '='
  Scan.spaces
  let content ← value steps deepest
  lineEnd
  let items ← StateT.lift (within (defineAt path name content) doc.header doc.items)
  return { doc with items := items }

/-- reads lines up to the end of the text, in at most `steps` steps -/
def readLines (doc : Document) : (steps : Nat) → Scan Document
  | 0 => failure
  | steps + 1 => do
    Scan.spaces
    match ← Scan.peek with
    | none => return doc
    | some c =>
      if c = '#' ∨ c = '\n' ∨ c = '\r' then
        lineEnd
        readLines doc steps
      else if ← Scan.optional '[' then
        readLines (← doc.readHeader) steps
      else
        readLines (← doc.readField (2 * steps + 2)) steps

end Document

/-- the fields of the table that a document is; a byte order mark may stand in front -/
def read? (s : List Char) : Option (List (String × Toml)) :=
  let body := if s.head? = some '\uFEFF' then s.tail else s
  (Document.readLines ⟨[], []⟩ (body.length + 1) body).map fun read => ofItems read.1.items

end StubTemplate.Toml
