/-
Query strings: the fields of a JSON object or array as `key=value` pairs joined by `&`.

Every byte outside the unreserved characters is written as `%` and two hexadecimal digits. Fields that are `null` are
left out, and the items of an array stand under their indices. `restore` puts back the raw form of chosen characters
by replacing their encoded form wherever it occurs.
-/
import StubTemplate.Error
import StubTemplate.Json.Printer
import StubTemplate.Json.Reader
import StubTemplate.Number.Hex
import StubTemplate.Text.Blank
import StubTemplate.Text.Replace

namespace StubTemplate.QueryString

def isUnreserved (c : Char) : Bool :=
  c.isAlphanum || c == '-' || c == '.' || c == '_' || c == '~'

def encodeByte (b : UInt8) : List Char :=
  ['%', Hex.upperDigit (b.toNat / 16), Hex.upperDigit (b.toNat % 16)]

/-- a character, byte by byte unless it stands for itself -/
def encodeChar (c : Char) : List Char :=
  if isUnreserved c then [c] else (String.utf8EncodeChar c).flatMap encodeByte

def encode (s : List Char) : List Char := s.flatMap encodeChar

/-- positional from `0.0001` up to 15 digits, whole numbers without a point; otherwise a point and an exponent -/
def floatLayout : Layout where
  positional exponent := decide (-4 ≤ exponent ∧ exponent < 15)
  wholePoint := false
  digitPoint := true
  mark := 'E'
  tie := .up

/-- what a field's value is sent as; `null` is not sent -/
def valueText : Json → Option (List Char)
  | .null => none
  | .bool flag => some (if flag then ['1'] else ['0'])
  | .integer number => some (Numeral.ofInt number)
  | .float number => some (floatLayout.write number)
  | .str text => some text.toList
  | .array items => some (Json.array items).compact
  | .object fields => some (Json.object fields).compact

/-- the fields of an object, or the items of an array under their indices -/
def fields : Json → Option (List (List Char × Json))
  | .object fields => some (fields.map fun field => (field.1.toList, field.2))
  | .array items => some (items.zipIdx.map fun item => (Nat.toDigits 10 item.2, item.1))
  | _ => none

def pairs (json : Json) : Option (List (List Char × List Char)) :=
  (fields json).map fun fields => fields.filterMap fun field => (valueText field.2).map (field.1, ·)

def writePair (pair : List Char × List Char) : List Char :=
  encode pair.1 ++ '=' :: encode pair.2

def ofJson (json : Json) : Option (List Char) :=
  (pairs json).map fun pairs => ['&'].intercalate (pairs.map writePair)

/-- puts back one character or text where its encoded form occurs -/
def restoreOne (query raw : List Char) : List Char :=
  if raw = [] ∨ encode raw = raw then query else Text.replaceAll (encode raw) raw query

def restore (query : List Char) (ignored : List (List Char)) : List Char :=
  ignored.foldl restoreOne query

/-- the characters to leave alone, from the second argument; without it, or if it is null, there are none -/
def ignored (arguments : List Value) : Except Error (List (List Char)) :=
  match arguments.drop 1 with
  | [] | .null :: _ => .ok []
  | value :: _ =>
    match value.elements? with
    | none => .error .ignoredNotList
    | some elements => elements.mapM fun element =>
      match element.text? with
      | some text => .ok text.toList
      | none => .error .ignoredNotScalar

/-- the file name in messages: the text of the first argument, empty if it has none -/
def filename (arguments : List Value) : String :=
  (arguments.head?.bind Value.text?).getD ""

/-- the query string of a JSON text, with the characters of the second argument left alone -/
def ofText (content : String) (arguments : List Value) : Except Error String := do
  let ignored ← ignored arguments
  match Json.read? (Text.trim content.toList) with
  | none => .error (.jsonInvalid (filename arguments) false)
  | some json =>
    match ofJson json with
    | none => .error (.jsonInvalid (filename arguments) true)
    | some query => return String.ofList (restore query ignored)

end StubTemplate.QueryString
