/-
The elements of an array, and the value that they make.

An element has a key or takes the next free index. Indices count up from the largest integer key so far, at least from
`0`, and stop at the largest that 64 bits hold. One element with a key makes the array a map, otherwise it is a list.
-/
import StubTemplate.Value.Basic

namespace StubTemplate.Argument

/-- an element of an array -/
inductive Element where
  | item (value : Value)
  | entry (key : Key) (value : Value)

structure Building where
  entries : Entries
  /-- whether some element had a key -/
  keyed : Bool
  /-- the index for the next element without a key -/
  next : Int64

namespace Building

def empty : Building := ⟨[], false, 0⟩

/-- the index after `i`, or `i` if it is the last -/
def following (i : Int64) : Int64 := Numeral.clamp (i.toInt + 1)

/-- the next index when `key` is taken -/
def nextAfter (next : Int64) : Key → Int64
  | .str _ => next
  | .int i => if next ≤ following i then following i else next

/-- puts in one more element -/
def add (b : Building) : Element → Building
  | .item value => { b with entries := b.entries.put (.int b.next) value, next := following b.next }
  | .entry key value => ⟨b.entries.put key value, true, nextAfter b.next key⟩

def value (b : Building) : Value :=
  if b.keyed then .map b.entries else .list b.entries.values

end Building

def arrayOf (elements : List Element) : Value :=
  (elements.foldl Building.add Building.empty).value

end StubTemplate.Argument
