/-
TOML strings, numbers and dates.

Each reader takes a part off the front of a text and gives what follows, or refuses. A `Scan` is such a reader.
-/
import StubTemplate.Number.Hex
import StubTemplate.Number.Numeral
import StubTemplate.Toml.Basic

namespace StubTemplate.Toml

/-- reads a part of a text and leaves the rest -/
abbrev Scan := StateT (List Char) Option

def isSpace (c : Char) : Bool := c == ' ' || c == '\t'

/-- whether a character may stand in a comment or a string: no control character but the tab -/
def isTextChar (c : Char) : Bool := c == '\t' || (0x20 ≤ c.toNat && c.toNat != 0x7F)

namespace Scan

def spaces : Scan Unit := fun s => some ((), s.dropWhile isSpace)

def peek : Scan (Option Char) := fun s => some (s.head?, s)

def rest : Scan (List Char) := fun s => some (s, s)

/-- takes one character that has to be there -/
def expect (c : Char) : Scan Unit
  | d :: rest => if d = c then some ((), rest) else none
  | [] => none

/-- takes a character if it comes next -/
def optional (c : Char) : Scan Bool
  | d :: rest => if d = c then some (true, rest) else some (false, d :: rest)
  | [] => some (false, [])

def optionalText (text : String) : Scan Bool := fun s =>
  if text.toList <+: s then some (true, s.drop text.toList.length) else some (false, s)

/-- exactly `count` decimal digits, as a number within bounds -/
def number (count low high : Nat) : Scan Nat := fun s =>
  let value := Numeral.digitsValue (s.take count)
  if (s.take count).length = count ∧ (s.take count).all Char.isDigit = true ∧ low ≤ value ∧ value ≤ high then
    some (value, s.drop count)
  else none

end Scan

/-- the character of a code point, if it is one -/
def charOf? (point : Nat) : Option Char :=
  if point.isValidChar then some (Char.ofNat point) else none

def unescape? : Char → Option Char
  | '"' => some '"'
  | '\\' => some '\\'
  | 'b' => some '\x08'
  | 'f' => some '\x0c'
  | 'n' => some '\n'
  | 'r' => some '\r'
  | 't' => some '\t'
  | _ => none

/-- a character in front of what a reader gave -/
def onto (c : Char) (read : Option (List Char × List Char)) : Option (List Char × List Char) :=
  read.map fun read => (c :: read.1, read.2)

/-- the text up to the closing quote of a basic string -/
def basicString : Scan (List Char)
  | [] => none
  | '"' :: rest => some ([], rest)
  | '\\' :: 'u' :: a :: b :: c :: d :: rest => do
    let point ← Hex.number? [a, b, c, d]
    onto (← charOf? point) (basicString rest)
  | '\\' :: 'U' :: a :: b :: c :: d :: e :: f :: g :: h :: rest => do
    let point ← Hex.number? [a, b, c, d, e, f, g, h]
    onto (← charOf? point) (basicString rest)
  | '\\' :: c :: rest => do onto (← unescape? c) (basicString rest)
  | c :: rest => if c ≠ '\\' ∧ isTextChar c = true then onto c (basicString rest) else none

/-- whether nothing but spaces comes before the end of the line -/
def endsLine (s : List Char) : Bool :=
  match s.dropWhile isSpace with
  | '\n' :: _ => true
  | '\r' :: '\n' :: _ => true
  | _ => false

/--
The text up to the closing quotes of a basic string of several lines. When `skipping`, a backslash has ended a line,
and blanks and further line ends are dropped. Up to two quotes may stand right before the closing ones.
-/
def basicLines (skipping : Bool) : Scan (List Char)
  | [] => none
  | '"' :: '"' :: '"' :: '"' :: '"' :: rest => some (['"', '"'], rest)
  | '"' :: '"' :: '"' :: '"' :: rest => some (['"'], rest)
  | '"' :: '"' :: '"' :: rest => some ([], rest)
  | '\\' :: 'u' :: a :: b :: c :: d :: rest => do
    let point ← Hex.number? [a, b, c, d]
    onto (← charOf? point) (basicLines false rest)
  | '\\' :: 'U' :: a :: b :: c :: d :: e :: f :: g :: h :: rest => do
    let point ← Hex.number? [a, b, c, d, e, f, g, h]
    onto (← charOf? point) (basicLines false rest)
  | '\\' :: c :: rest =>
    if endsLine (c :: rest) then basicLines true (c :: rest)
    else do onto (← unescape? c) (basicLines false rest)
  | '\r' :: '\n' :: rest => if skipping then basicLines true rest else onto '\n' (basicLines false rest)
  | '\n' :: rest => if skipping then basicLines true rest else onto '\n' (basicLines false rest)
  | c :: rest =>
    if skipping ∧ isSpace c = true then basicLines true rest
    else if c ≠ '\\' ∧ isTextChar c = true then onto c (basicLines false rest)
    else none

def literalString : Scan (List Char)
  | [] => none
  | c :: rest =>
    if c = '\x27' then some ([], rest) else if isTextChar c then onto c (literalString rest) else none

def literalLines : Scan (List Char)
  | [] => none
  | '\x27' :: '\x27' :: '\x27' :: '\x27' :: '\x27' :: rest => some (['\x27', '\x27'], rest)
  | '\x27' :: '\x27' :: '\x27' :: '\x27' :: rest => some (['\x27'], rest)
  | '\x27' :: '\x27' :: '\x27' :: rest => some ([], rest)
  | '\r' :: '\n' :: rest => onto '\n' (literalLines rest)
  | c :: rest => if c = '\n' ∨ isTextChar c = true then onto c (literalLines rest) else none

def firstLineEnd : List Char → List Char
  | '\n' :: rest => rest
  | '\r' :: '\n' :: rest => rest
  | rest => rest

def string : Scan (List Char)
  | '"' :: '"' :: '"' :: rest => basicLines false (firstLineEnd rest)
  | '"' :: rest => basicString rest
  | '\x27' :: '\x27' :: '\x27' :: rest => literalLines (firstLineEnd rest)
  | '\x27' :: rest => literalString rest
  | _ => none

/-- digits that may go on, with single underscores between them -/
def moreDigits (isDigit : Char → Bool) : Scan (List Char)
  | [] => some ([], [])
  | '_' :: [] => none
  | '_' :: d :: rest => if isDigit d then onto d (moreDigits isDigit rest) else none
  | c :: rest => if isDigit c then onto c (moreDigits isDigit rest) else some ([], c :: rest)

def digits (isDigit : Char → Bool) : Scan (List Char)
  | [] => none
  | c :: rest => if isDigit c then onto c (moreDigits isDigit rest) else none

/-- the digits of a decimal integer, without a leading zero -/
def decimalDigits : Scan (List Char)
  | '0' :: rest => some (['0'], rest)
  | s => digits Char.isDigit s

/-- an integer of 64 bits -/
def integerOf? (i : Int) : Option Toml :=
  if Int64.minValue.toInt ≤ i ∧ i ≤ Int64.maxValue.toInt then some (.integer i) else none

def basedInteger (base : Nat) : Scan Toml := do
  let text ← digits fun c => (Hex.value? c).any (· < base)
  let value := text.foldl (fun value c => base * value + (Hex.value? c).getD 0) 0
  StateT.lift (integerOf? value)

/-- sign and digits of an exponent, if its mark comes next -/
def exponent : Scan (Option (Bool × List Char)) := do
  let mark ← (do if ← Scan.optional 'e' then return true else Scan.optional 'E')
  if !mark then return none
  let negative ← Scan.optional '-'
  if !negative then discard (Scan.optional '+')
  return some (negative, ← digits Char.isDigit)

/-- an integer or a float, after its sign; a float too large for double precision is refused unless it is negative -/
def decimal (negative : Bool) : Scan Toml := do
  let whole ← decimalDigits
  let fraction ← if ← Scan.optional '.' then some <$> digits Char.isDigit else pure none
  let power ← exponent
  if fraction.isNone && power.isNone then
    let value : Int := Numeral.digitsValue whole
    StateT.lift (integerOf? (if negative then -value else value))
  else
    let value := (Numeral.mk negative whole fraction power).toBinary64
    if value = Binary64.infinity false then failure
    return .float value

def number : Scan Toml := do
  if ← Scan.optionalText "0x" then basedInteger 16
  else if ← Scan.optionalText "0o" then basedInteger 8
  else if ← Scan.optionalText "0b" then basedInteger 2
  else
    let negative ← Scan.optional '-'
    if !negative then discard (Scan.optional '+')
    if ← Scan.optionalText "inf" then return .float (Binary64.infinity negative)
    else if ← Scan.optionalText "nan" then return .float Binary64.nan
    else decimal negative

def startsWithDigits (count : Nat) (mark : Char) (s : List Char) : Bool :=
  (s.take count).all Char.isDigit && s[count]? == some mark

def daysOf (year month : Nat) : Nat :=
  if month = 2 then (if year % 4 = 0 ∧ (year % 100 ≠ 0 ∨ year % 400 = 0) then 29 else 28)
  else if month ∈ [4, 6, 9, 11] then 30
  else 31

def time : Scan Unit := do
  discard (Scan.number 2 0 23)
  Scan.expect ':'
  discard (Scan.number 2 0 59)
  Scan.expect ':'
  discard (Scan.number 2 0 60)
  if ← Scan.optional '.' then discard (fun s =>
    if s.head?.any Char.isDigit then some ((), s.dropWhile Char.isDigit) else none : Scan Unit)

/-- how far a time is from universal time, if that is said -/
def offset : Scan Unit := do
  let next ← Scan.peek
  if next = some 'Z' ∨ next = some 'z' then modify List.tail
  else if next = some '+' ∨ next = some '-' then
    modify List.tail
    discard (Scan.number 2 0 23)
    Scan.expect ':'
    discard (Scan.number 2 0 59)

def dateOrTime : Scan Toml := do
  if startsWithDigits 2 ':' (← Scan.rest) then
    time
    return .moment
  let year ← Scan.number 4 0 9999
  Scan.expect '-'
  let month ← Scan.number 2 1 12
  Scan.expect '-'
  discard (Scan.number 2 1 (daysOf year month))
  let next ← Scan.rest
  if next.head?.any (['T', 't', ' '].contains ·) && startsWithDigits 2 ':' next.tail then
    modify List.tail
    time
    offset
  return .moment

/-- a value that holds no others -/
def scalar : Scan Toml := do
  let next ← Scan.rest
  if next.head? = some '"' ∨ next.head? = some '\x27' then return .str (String.ofList (← string))
  else if ← Scan.optionalText "true" then return .bool true
  else if ← Scan.optionalText "false" then return .bool false
  else if startsWithDigits 4 '-' next || startsWithDigits 2 ':' next then dateOrTime
  else number

end StubTemplate.Toml
