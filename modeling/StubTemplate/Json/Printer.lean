/-
JSON text: the compact form without blanks, and the indented form.

Only the quote, the backslash and the characters below U+0020 are escaped. A number that is not finite is written
`null`.
-/
import StubTemplate.Json.Basic

namespace StubTemplate.Json

/-- positional from `0.00001` up to 16 digits, whole numbers with `.0`, otherwise an exponent after `e` -/
def floatLayout : Layout where
  positional exponent := decide (-5 ≤ exponent ∧ exponent < 16)
  wholePoint := true
  digitPoint := false
  mark := 'e'
  tie := .even

def escape (c : Char) : List Char :=
  if c = '"' then ['\\', '"']
  else if c = '\\' then ['\\', '\\']
  else if c = '\x08' then ['\\', 'b']
  else if c = '\x0c' then ['\\', 'f']
  else if c = '\n' then ['\\', 'n']
  else if c = '\r' then ['\\', 'r']
  else if c = '\t' then ['\\', 't']
  else if c.toNat < 0x20 then
    ['\\', 'u', '0', '0', Nat.digitChar (c.toNat / 16), Nat.digitChar (c.toNat % 16)]
  else [c]

def quote (text : String) : List Char :=
  '"' :: text.toList.flatMap escape ++ ['"']

/-- a value that holds no others -/
def scalar : Json → List Char
  | .null => "null".toList
  | .bool true => "true".toList
  | .bool false => "false".toList
  | .integer number => Numeral.ofInt number
  | .float number => if number.isFinite then floatLayout.write number else "null".toList
  | .str text => quote text
  | .array _ | .object _ => []

mutual

def compact : Json → List Char
  | .array [] => ['[', ']']
  | .array (item :: rest) => '[' :: compact item ++ compactItems rest
  | .object [] => ['\x7b', '\x7d']
  | .object ((name, value) :: rest) => '\x7b' :: quote name ++ ':' :: compact value ++ compactFields rest
  | json => scalar json

/-- the items after the first, and the bracket -/
def compactItems : List Json → List Char
  | [] => [']']
  | item :: rest => ',' :: compact item ++ compactItems rest

/-- the fields after the first, and the brace -/
def compactFields : List (String × Json) → List Char
  | [] => ['\x7d']
  | (name, value) :: rest => ',' :: quote name ++ ':' :: compact value ++ compactFields rest

end

def newline (depth : Nat) : List Char :=
  '\n' :: List.replicate (2 * depth) ' '

mutual

/-- the text with each item and field on a line of its own -/
def indented (depth : Nat) : Json → List Char
  | .array [] => ['[', ']']
  | .array (item :: rest) =>
    '[' :: newline (depth + 1) ++ indented (depth + 1) item ++ indentedItems (depth + 1) rest ++ newline depth ++ [']']
  | .object [] => ['\x7b', '\x7d']
  | .object ((name, value) :: rest) =>
    '\x7b' :: newline (depth + 1) ++ quote name ++ ':' :: ' ' :: indented (depth + 1) value
      ++ indentedFields (depth + 1) rest ++ newline depth ++ ['\x7d']
  | json => scalar json

def indentedItems (depth : Nat) : List Json → List Char
  | [] => []
  | item :: rest => ',' :: newline depth ++ indented depth item ++ indentedItems depth rest

def indentedFields (depth : Nat) : List (String × Json) → List Char
  | [] => []
  | (name, value) :: rest =>
    ',' :: newline depth ++ quote name ++ ':' :: ' ' :: indented depth value ++ indentedFields depth rest

end

end StubTemplate.Json
