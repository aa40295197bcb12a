/-
Scalars: the words `null`, `true` and `false` in any case, numerals, quoted strings, and bare strings.

A quoted string stands between two equal quotes; inside it a backslash makes the next character ordinary, and
`unescape` takes the backslashes away.
-/
import StubTemplate.Text.Blank
import StubTemplate.Value.Basic

namespace StubTemplate.Argument

/-- the text without its first and last character, if these are two ASCII characters; else nothing -/
def inside : List Char → List Char
  | [] => []
  | first :: rest =>
    match rest.getLast? with
    | none => []
    | some last => if first.utf8Size = 1 ∧ last.utf8Size = 1 then rest.dropLast else []

def unquote? (s : List Char) : Option (List Char) :=
  if ['\x27', '"'].any fun quote => s.head? == some quote && s.getLast? == some quote then some (inside s) else none

/-- the text with each backslash dropped and the character after it kept -/
def unescape : List Char → List Char
  | [] => []
  | '\\' :: [] => []
  | '\\' :: c :: rest => c :: unescape rest
  | c :: rest => c :: unescape rest

def isWord (word : String) (s : List Char) : Bool :=
  s.map Char.toLower == word.toList

/-- the value of a text that is no array: the first of the forms that fits -/
def scalar (s : List Char) : Value :=
  let token := Text.trim s
  if isWord "null" token then .null
  else if isWord "true" token then .bool true
  else if isWord "false" token then .bool false
  else
    match Numeral.read? token with
    | some numeral => if numeral.fraction.isSome then .float numeral.toBinary64 else .int numeral.toInt64
    | none =>
      match unquote? token with
      | some body => .str (String.ofList (unescape body))
      | none => .str (String.ofList token)

/-- the key that a text before `=>` spells, if a scalar of its form may be a key -/
def key? (s : List Char) : Option Key :=
  match scalar s with
  | .str text => some (Key.ofText text)
  | .int number => some (.int number)
  | _ => none

end StubTemplate.Argument
