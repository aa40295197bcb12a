/-
Reading JSON: a machine that takes one token after another.

Its state is the stack of arrays and objects that are open, and what may come next. Arrays and objects may stand at
most 127 deep in one another. A field whose name comes again keeps its first place and takes the last value.
-/
import StubTemplate.Json.Token

namespace StubTemplate.Json

inductive Open where
  /-- the items so far, the latest first -/
  | array (items : List Json)
  /-- the fields so far, and the name of the next one -/
  | object (fields : List (String × Json)) (name : String)

inductive Expected where
  | value
  | firstItem
  | firstField
  | field
  | colon
  | separator

/-- how far a text has been read -/
inductive Reading where
  | within (stack : List Open) (expected : Expected)
  | done (value : Json)

/-- how deep arrays and objects may stand in one another -/
def deepest : Nat := 127

/-- the fields with a value under a name: in its place if it has one, else at the end -/
def putField (name : String) (value : Json) : List (String × Json) → List (String × Json)
  | [] => [(name, value)]
  | (n, v) :: rest => if n = name then (n, value) :: rest else (n, v) :: putField name value rest

def place (value : Json) : List Open → Reading
  | [] => .done value
  | .array items :: outer => .within (.array (value :: items) :: outer) .separator
  | .object fields name :: outer => .within (.object (putField name value fields) name :: outer) .separator

/-- opens an array or object, if it does not stand too deep -/
def enter (inner : Open) (expected : Expected) (stack : List Open) : Option Reading :=
  if stack.length < deepest then some (.within (inner :: stack) expected) else none

/-- reads a token where a value may stand -/
def readValue (stack : List Open) : Token → Option Reading
  | .openArray => enter (.array []) .firstItem stack
  | .openObject => enter (.object [] "") .firstField stack
  | .string text => some (place (.str text) stack)
  | .atom value => some (place value stack)
  | _ => none

def step : Reading → Token → Option Reading
  | .within stack .value, token => readValue stack token
  | .within (.array _ :: outer) .firstItem, .closeArray => some (place (.array []) outer)
  | .within stack .firstItem, token => readValue stack token
  | .within (.object _ _ :: outer) .firstField, .closeObject => some (place (.object []) outer)
  | .within (.object fields _ :: outer) .firstField, .string name =>
    some (.within (.object fields name :: outer) .colon)
  | .within (.object fields _ :: outer) .field, .string name =>
    some (.within (.object fields name :: outer) .colon)
  | .within stack .colon, .colon => some (.within stack .value)
  | .within (.array items :: outer) .separator, .comma => some (.within (.array items :: outer) .value)
  | .within (.array items :: outer) .separator, .closeArray => some (place (.array items.reverse) outer)
  | .within (.object fields name :: outer) .separator, .comma => some (.within (.object fields name :: outer) .field)
  | .within (.object fields _ :: outer) .separator, .closeObject => some (place (.object fields) outer)
  | _, _ => none

def read? (s : List Char) : Option Json := do
  let tokens ← tokens s
  match ← tokens.foldlM step (.within [] .value) with
  | .done value => some value
  | .within _ _ => none

end StubTemplate.Json
