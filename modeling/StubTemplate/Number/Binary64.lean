/-
Double-precision numbers, kept by sign and rank.

The rank is the place of the magnitude among all magnitudes: `0` is zero, each step goes to the next number, the rank
`infinityRank` is infinity, and every rank above it is not a number. With the sign it is exactly the number's bit
pattern, so equality is identity of bits. `units` gives the magnitude of a finite rank in units of `2 ^ -1074`, the
smallest positive number, and `nearestRank` goes back from any fraction of such units, with ties to the even rank.
-/

namespace StubTemplate

/-- a double-precision number: its sign, and the rank of its magnitude -/
structure Binary64 where
  negative : Bool
  rank : Nat
  deriving DecidableEq, Inhabited

namespace Binary64

/-- the number of ranks from one power of two up to the next -/
def binade : Nat := Nat.pow 2 52

def infinityRank : Nat := 2047 * binade

def infinity (negative : Bool) : Binary64 := ⟨negative, infinityRank⟩

def nan : Binary64 := ⟨false, infinityRank + binade / 2⟩

def isFinite (x : Binary64) : Bool := decide (x.rank < infinityRank)

def isNaN (x : Binary64) : Bool := decide (infinityRank < x.rank)

/-- magnitude of a finite rank, in units of `2 ^ -1074`: below `2 ^ 53` the rank itself, then 53 bits and a shift -/
def units (rank : Nat) : Nat :=
  if rank < 2 * binade then rank else (binade + rank % binade) * Nat.pow 2 (rank / binade - 1)

def one : Nat := Nat.pow 2 1074

/-- the integer nearest to `num / den`, a tie going to the even one -/
def roundHalfEven (num den : Nat) : Nat :=
  let quotient := num / den
  let rest := num % den
  if 2 * rest < den then quotient
  else if den < 2 * rest then quotient + 1
  else quotient + quotient % 2

/-- the rank nearest to `num / den` units, a tie going to the even rank; beyond the largest finite number, infinity -/
def nearestRank (num den : Nat) : Nat :=
  let shift := (num / den).log2 - 52
  min (shift * binade + roundHalfEven num (den * Nat.pow 2 shift)) infinityRank

/--
The rank nearest to `digits * 10 ^ exponent`. Magnitudes from `10 ^ 310` up are infinite and those below `10 ^ -330`
are zero; they are told by the number of digits, so that an exponent of any size costs nothing.
-/
def decimalRank (digits : Nat) (exponent : Int) : Nat :=
  let magnitude := (Nat.toDigits 10 digits).length + exponent
  if digits = 0 ∨ magnitude < -330 then 0
  else if 310 < magnitude then infinityRank
  else if 0 ≤ exponent then nearestRank (digits * Nat.pow 10 exponent.toNat * one) 1
  else nearestRank (digits * one) (Nat.pow 10 (-exponent).toNat)

def ofDecimal (negative : Bool) (digits : Nat) (exponent : Int) : Binary64 :=
  ⟨negative, decimalRank digits exponent⟩

def mulRank (a b : Nat) : Nat := nearestRank (units a * units b) one

def divRank (a b : Nat) : Nat := nearestRank (units a * one) (units b)

/-- the integer part; the infinities give `bound` with their sign, and what is not a number gives zero -/
def truncate (bound : Nat) (x : Binary64) : Int :=
  let magnitude : Nat := if x.isNaN then 0 else if x.isFinite then units x.rank / one else bound
  if x.negative then -magnitude else magnitude

def signedUnits (x : Binary64) : Int :=
  if x.negative then -(units x.rank) else units x.rank

/-- the place of a number among all bit patterns, the negative ones below `0` -/
def position (x : Binary64) : Int :=
  if x.negative then -(x.rank : Int) - 1 else x.rank

/--
Whether two numbers are close enough to count as one: they are the same infinity, or they differ by at most `2 ^ -52`
after the difference is rounded to the nearest number, which lets in up to half a step more, or at most four numbers
lie from one to the other.
-/
def isClose (x y : Binary64) : Bool :=
  x == y
    || (x.isFinite && y.isFinite && decide ((x.signedUnits - y.signedUnits).natAbs ≤ Nat.pow 2 1022 + Nat.pow 2 969))
    || decide ((x.position - y.position).natAbs ≤ 4)

end Binary64

end StubTemplate
