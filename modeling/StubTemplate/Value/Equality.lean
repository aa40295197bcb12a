/-
Equality of values.

Maps are compared without regard to the order of their entries, and values of two kinds are never equal. How floats are
compared is left open in `equalsBy`; equality of values takes `Binary64.isClose` for it.
-/
import StubTemplate.Value.Basic

namespace StubTemplate.Value

mutual

/-- whether two values count as equal when floats are compared by `close` -/
def equalsBy (close : Binary64 → Binary64 → Bool) : Value → Value → Bool
  | .null, .null => true
  | .bool a, .bool b => a == b
  | .int a, .int b => a == b
  | .float a, .float b => close a b
  | .str a, .str b => a == b
  | .list a, .list b => itemsEqual close a b
  | .map a, .map b => a.length == b.length && entriesWithin close a b
  | _, _ => false

def itemsEqual (close : Binary64 → Binary64 → Bool) : List Value → List Value → Bool
  | [], [] => true
  | a :: as, b :: bs => equalsBy close a b && itemsEqual close as bs
  | _, _ => false

/-- whether each entry on the left has an equal value under its key on the right -/
def entriesWithin (close : Binary64 → Binary64 → Bool) : Entries → Entries → Bool
  | [], _ => true
  | (key, a) :: rest, b =>
    (match Entries.get? key b with
      | some v => equalsBy close a v
      | none => false) && entriesWithin close rest b

end

def equals : Value → Value → Bool := equalsBy Binary64.isClose

instance : BEq Value := ⟨equals⟩

end StubTemplate.Value
