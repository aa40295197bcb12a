/-
The tokens of a JSON text.

A string literal is read as UTF-16 units, so that an escaped surrogate pair becomes one character and a surrogate
without its partner makes the text invalid. Every token takes at least one character, which bounds the number of
tokens.
-/
import StubTemplate.Json.Number
import StubTemplate.Number.Hex

namespace StubTemplate.Json

/-- a token: a bracket, a brace, a separator, a string, or another value that holds no others -/
inductive Token where
  | openArray
  | closeArray
  | openObject
  | closeObject
  | comma
  | colon
  | string (text : String)
  | atom (value : Json)

def isSpace (c : Char) : Bool :=
  c == ' ' || c == '\t' || c == '\n' || c == '\r'

def unescape? : Char → Option Char
  | '"' => some '"'
  | '\\' => some '\\'
  | '/' => some '/'
  | 'b' => some '\x08'
  | 'f' => some '\x0c'
  | 'n' => some '\n'
  | 'r' => some '\r'
  | 't' => some '\t'
  | _ => none

/-- code points up to the closing quote, where a `\u` escape may be one half of a surrogate pair, and what follows -/
def readString : List Char → Option (List Nat × List Char)
  | [] => none
  | '"' :: rest => some ([], rest)
  | '\\' :: 'u' :: a :: b :: c :: d :: rest => do
    let point ← Hex.number? [a, b, c, d]
    let (points, after) ← readString rest
    return (point :: points, after)
  | '\\' :: c :: rest => do
    let point ← unescape? c
    let (points, after) ← readString rest
    return (point.toNat :: points, after)
  | c :: rest =>
    if c = '\\' ∨ c.toNat < 0x20 then none
    else (readString rest).map fun read => (c.toNat :: read.1, read.2)

/-- the characters of code points, each surrogate pair becoming one -/
def joinSurrogates : List Nat → Option (List Char)
  | [] => some []
  | high :: rest =>
    if 0xD800 ≤ high ∧ high < 0xDC00 then
      match rest with
      | low :: rest =>
        if 0xDC00 ≤ low ∧ low < 0xE000 then
          (joinSurrogates rest).map (Char.ofNat (0x10000 + (high - 0xD800) * 0x400 + (low - 0xDC00)) :: ·)
        else none
      | [] => none
    else if 0xDC00 ≤ high ∧ high < 0xE000 then none
    else (joinSurrogates rest).map (Char.ofNat high :: ·)

def readToken (c : Char) (rest : List Char) : Option (Token × List Char) :=
  match c, rest with
  | '[', rest => some (.openArray, rest)
  | ']', rest => some (.closeArray, rest)
  | '\x7b', rest => some (.openObject, rest)
  | '\x7d', rest => some (.closeObject, rest)
  | ',', rest => some (.comma, rest)
  | ':', rest => some (.colon, rest)
  | '"', rest => do
    let (points, after) ← readString rest
    let text ← joinSurrogates points
    return (.string (String.ofList text), after)
  | 'n', 'u' :: 'l' :: 'l' :: rest => some (.atom .null, rest)
  | 't', 'r' :: 'u' :: 'e' :: rest => some (.atom (.bool true), rest)
  | 'f', 'a' :: 'l' :: 's' :: 'e' :: rest => some (.atom (.bool false), rest)
  | c, rest => do
    let number ← ofNumberText (c :: rest.takeWhile isNumberChar)
    return (.atom number, rest.dropWhile isNumberChar)

/-- the tokens of a text, at most `bound` characters after the blanks between them -/
def tokensWithin : (bound : Nat) → List Char → Option (List Token)
  | _, [] => some []
  | 0, _ :: _ => none
  | bound + 1, c :: rest =>
    if isSpace c then tokensWithin bound rest
    else do
      let (token, after) ← readToken c rest
      let tokens ← tokensWithin bound after
      return token :: tokens

def tokens (s : List Char) : Option (List Token) := tokensWithin s.length s

end StubTemplate.Json
