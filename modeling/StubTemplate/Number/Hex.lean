/-
Hexadecimal digits, in either case.
-/

namespace StubTemplate.Hex

def value? (c : Char) : Option Nat :=
  if c.isDigit then some (c.toNat - '0'.toNat)
  else if 'a' ≤ c ∧ c ≤ 'f' then some (c.toNat - 'a'.toNat + 10)
  else if 'A' ≤ c ∧ c ≤ 'F' then some (c.toNat - 'A'.toNat + 10)
  else none

def number? (digits : List Char) : Option Nat :=
  digits.foldlM (fun number c => (value? c).map (16 * number + ·)) 0

/-- the upper-case digit of a value below 16 -/
def upperDigit (n : Nat) : Char := (Nat.digitChar n).toUpper

theorem value?_upperDigit : ∀ n < 16, value? (upperDigit n) = some n := by decide

end StubTemplate.Hex
