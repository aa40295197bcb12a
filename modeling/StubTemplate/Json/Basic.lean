/-
JSON values, and the JSON form of an argument.

An object keeps its fields in order. A map becomes an object under the texts of its keys.
-/
import StubTemplate.Value.Basic

namespace StubTemplate

/-- a JSON value; numbers are integers or double-precision -/
inductive Json where
  | null
  | bool (flag : Bool)
  | integer (number : Int)
  | float (number : Binary64)
  | str (text : String)
  | array (items : List Json)
  | object (fields : List (String × Json))
  deriving Inhabited

namespace Value

mutual

/-- the JSON form of a value -/
def toJson : Value → Json
  | .null => .null
  | .bool flag => .bool flag
  | .int number => .integer number.toInt
  | .float number => .float number
  | .str text => .str text
  | .list items => .array (itemsToJson items)
  | .map entries => .object (entriesToJson entries)

def itemsToJson : List Value → List Json
  | [] => []
  | item :: rest => toJson item :: itemsToJson rest

def entriesToJson : Entries → List (String × Json)
  | [] => []
  | (key, value) :: rest => (key.text, toJson value) :: entriesToJson rest

end

end Value

end StubTemplate
