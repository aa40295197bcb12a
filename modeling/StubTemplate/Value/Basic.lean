/-
The values that a placeholder passes to its processor.

A list holds values by position, a map under keys in the order in which the keys first came; a key is a text or an
integer. `put` writes an entry and keeps the place of a key that is already there.
-/
import StubTemplate.Number.Layout
import StubTemplate.Number.Numeral

namespace StubTemplate

/-- a key of a map -/
inductive Key where
  | str (text : String)
  | int (number : Int64)
  deriving DecidableEq

/-- an argument of a placeholder, or a part of one -/
inductive Value where
  | null
  | bool (flag : Bool)
  | int (number : Int64)
  | float (number : Binary64)
  | str (text : String)
  | list (items : List Value)
  | map (entries : List (Key × Value))
  deriving Inhabited

abbrev Entries := List (Key × Value)

namespace Key

/-- the key that a text names: the integer if the text is its plain numeral, else the text itself -/
def ofText (text : String) : Key :=
  match Numeral.canonicalInt? text.toList with
  | some number => .int number
  | none => .str text

def text : Key → String
  | .str text => text
  | .int number => String.ofList (Numeral.ofInt number.toInt)

end Key

namespace Entries

/-- the entries with `value` under `key`: in the key's place if it has one, else at the end -/
def put (key : Key) (value : Value) : Entries → Entries
  | [] => [(key, value)]
  | (k, v) :: rest => if k = key then (k, value) :: rest else (k, v) :: put key value rest

def keys (entries : Entries) : List Key := entries.map Prod.fst

def values (entries : Entries) : List Value := entries.map Prod.snd

def get? (key : Key) : Entries → Option Value
  | [] => none
  | (k, v) :: rest => if k = key then some v else get? key rest

theorem keys_put (key : Key) (value : Value) (entries : Entries) :
    (entries.put key value).keys = if key ∈ entries.keys then entries.keys else entries.keys ++ [key] := by
  induction entries with
  | nil => rfl
  | cons entry rest ih =>
    obtain ⟨k, v⟩ := entry
    by_cases h : k = key
    · simp [put, keys, h]
    · have ih : (put key value rest).map Prod.fst
          = if key ∈ keys rest then keys rest else keys rest ++ [key] := ih
      have hk : key ≠ k := fun e => h e.symm
      by_cases hm : key ∈ keys rest <;> simp_all [put, keys]

theorem get?_put (key other : Key) (value : Value) (entries : Entries) :
    (entries.put key value).get? other = if key = other then some value else entries.get? other := by
  induction entries with
  | nil => simp [put, get?]
  | cons entry rest ih =>
    obtain ⟨k, v⟩ := entry
    by_cases h : k = key
    · subst h
      by_cases ho : k = other <;> simp [put, get?, ho]
    · by_cases ho : k = other
      · subst ho
        simp [put, get?, h, Ne.symm h]
      · simp [put, get?, h, ho, ih]

end Entries

namespace Value

def isNull : Value → Bool
  | .null => true
  | _ => false

/-- the values inside a list or a map, in order and without keys -/
def elements? : Value → Option (List Value)
  | .list items => some items
  | .map entries => some (Entries.values entries)
  | _ => none

/-- how a float stands as a text: plain digits, or a word if it is not finite -/
def floatText (x : Binary64) : List Char :=
  if x.isFinite then Layout.plain.write x
  else if x.isNaN then "NaN".toList
  else if x.negative then "-inf".toList
  else "inf".toList

/-- the text that a scalar stands for, as a file name or a character; lists and maps have none -/
def text? : Value → Option String
  | .null | .bool false => some ""
  | .bool true => some "1"
  | .int number => some (String.ofList (Numeral.ofInt number.toInt))
  | .float number => some (String.ofList (floatText number))
  | .str text => some text
  | .list _ | .map _ => none

end Value

end StubTemplate
