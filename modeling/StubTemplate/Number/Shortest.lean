/-
The shortest decimal that reads back as a given number.

Grids of one, two, three ... digits are tried in turn. On each the two neighbours of the number are candidates; the
first grid with a candidate that reads back wins, and of two such candidates the nearer one. A `Tie` decides between
two that are equally near. Seventeen digits are always enough; the exact expansion stands behind them, so that the
result reads back whatever the grids say.
-/
import StubTemplate.Number.Binary64

namespace StubTemplate

structure Decimal where
  digits : Nat
  exponent : Int
  deriving DecidableEq

namespace Decimal

/-- the same decimal with no zero at the end of its digits -/
def strip (d : Decimal) : Decimal :=
  if d.digits ≠ 0 ∧ d.digits % 10 = 0 then strip ⟨d.digits / 10, d.exponent + 1⟩ else d
termination_by d.digits
decreasing_by rename_i h; omega

def digitChars (d : Decimal) : List Char := Nat.toDigits 10 d.digits

/-- the exponent of the first digit, when one digit stands before the point -/
def leading (d : Decimal) : Int := d.exponent + d.digitChars.length - 1

end Decimal

/-- which of two decimals of the same length and equally near is taken -/
inductive Tie where
  /-- the larger one -/
  | up
  /-- the one with an even last digit -/
  | even
  deriving DecidableEq

namespace Binary64

/-- the exponent of the first decimal digit of a finite rank that is not zero -/
def leadingExponent (rank : Nat) : Int :=
  (Nat.toDigits 10 (units rank * Nat.pow 10 400 / one)).length - 401

/-- the finite rank as a fraction of the grid step `10 ^ exponent` -/
def onGrid (rank : Nat) (exponent : Int) : Nat × Nat :=
  if 0 ≤ exponent then (units rank, one * Nat.pow 10 exponent.toNat)
  else (units rank * Nat.pow 10 (-exponent).toNat, one)

/-- whether a decimal reads back as the rank -/
def readsBack (rank : Nat) (d : Decimal) : Bool :=
  decimalRank d.digits d.exponent == rank

/-- the neighbour of the rank on the grid with step `10 ^ exponent` that reads back: the nearer one if both do -/
def onStep (tie : Tie) (rank : Nat) (exponent : Int) : Option Decimal :=
  let (num, den) := onGrid rank exponent
  let below : Decimal := ⟨num / den, exponent⟩
  let above : Decimal := ⟨num / den + 1, exponent⟩
  let belowFirst := 2 * (num % den) < den ∨ (2 * (num % den) = den ∧ tie = .even ∧ num / den % 2 = 0)
  (if belowFirst then [below, above] else [above, below]).find? (readsBack rank)

def expansion (rank : Nat) : Decimal := ⟨units rank * Nat.pow 5 1074, -1074⟩

/-- the first hit on the grids with step `10 ^ exponent` and the next finer ones, `grids` of them, else the expansion -/
def shortestFrom (tie : Tie) (rank : Nat) (exponent : Int) : (grids : Nat) → Decimal
  | 0 => expansion rank
  | grids + 1 => (onStep tie rank exponent).getD (shortestFrom tie rank (exponent - 1) grids)

def shortest (tie : Tie) (rank : Nat) : Decimal :=
  if rank = 0 then ⟨0, 0⟩ else (shortestFrom tie rank (leadingExponent rank) 17).strip

end Binary64

end StubTemplate
