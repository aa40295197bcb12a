/-
JSON numbers.

A number without a point and an exponent is an integer when 64 bits hold it, signed if it is negative. Any other is a
double-precision number, computed as `m * 10 ^ x` or `m / 10 ^ -x` in that precision, where `m` holds the leading
digits that fit 64 bits. The result may therefore differ from the nearest number in its last place.
-/
import StubTemplate.Json.Basic

namespace StubTemplate.Json

/-- the leading digits as an integer below `2 ^ 64`, and the power of ten to multiply it by -/
structure Scaled where
  significand : Nat
  scale : Int

namespace Scaled

/-- whether one more digit still leaves the significand below `2 ^ 64` -/
def fits (s : Scaled) (digit : Char) : Bool :=
  s.significand * 10 + Nat.ofDigitChars 10 [digit] 0 < UInt64.size

/-- takes in digits before the point; from the first that does not fit, each only raises the scale -/
def addWhole (s : Scaled) : List Char → Scaled
  | [] => s
  | d :: rest =>
    if s.fits d then addWhole ⟨Nat.ofDigitChars 10 [d] s.significand, s.scale⟩ rest
    else ⟨s.significand, s.scale + (d :: rest).length⟩

/-- takes in digits after the point, up to the first that does not fit -/
def addFraction (s : Scaled) : List Char → Scaled
  | [] => s
  | d :: rest =>
    if s.fits d then addFraction ⟨Nat.ofDigitChars 10 [d] s.significand, s.scale - 1⟩ rest else s

end Scaled

/-- the largest exponent that may be written, and the bound of the sum of exponents -/
def exponentBound : Int := Int32.maxValue.toInt

/--
The rank of `rank * 10 ^ scale`: one multiplication or division by a power of ten up to `10 ^ 308`, after as many
divisions by `10 ^ 308` as a smaller scale needs. An infinite result is none.
-/
def scaleRank (rank : Nat) (scale : Int) : Option Nat :=
  if 0 ≤ scale ∧ scale ≤ 308 then
    some (Binary64.mulRank rank (Binary64.decimalRank 1 scale)) |>.filter (· < Binary64.infinityRank)
  else if rank = 0 then some 0
  else if 308 < scale then none
  else if -308 ≤ scale then some (Binary64.divRank rank (Binary64.decimalRank 1 (-scale)))
  else scaleRank (Binary64.divRank rank (Binary64.decimalRank 1 308)) (scale + 308)
termination_by scale.natAbs
decreasing_by omega

/-- the double-precision number that a numeral stands for, if it is finite -/
def floatOf (n : Numeral) : Option Binary64 :=
  let scaled := ((Scaled.mk 0 0).addWhole n.whole).addFraction (n.fraction.getD [])
  if exponentBound < n.exponentValue.natAbs then
    if 0 < n.exponentValue ∧ scaled.significand ≠ 0 then none else some ⟨n.negative, 0⟩
  else
    let scale := max (-exponentBound - 1) (min (scaled.scale + n.exponentValue) exponentBound)
    (scaleRank (Binary64.decimalRank scaled.significand 0) scale).map fun rank => ⟨n.negative, rank⟩

/-- whether a numeral has the form of a JSON number: digits on both sides of a point, no sign `+`, no leading zero -/
def isNumber (n : Numeral) : Bool :=
  n.whole ≠ [] && (n.whole.head? != some '0' || n.whole.length == 1) && n.fraction != some []

def ofNumeral (n : Numeral) : Option Json :=
  let magnitude := Numeral.digitsValue n.whole
  if !isNumber n then none
  else if n.fraction.isNone && n.exponent.isNone && !n.negative && magnitude < UInt64.size then
    some (.integer magnitude)
  else if n.fraction.isNone && n.exponent.isNone && n.negative && 0 < magnitude
      && Int64.minValue.toInt ≤ -magnitude then
    some (.integer (-magnitude))
  else (floatOf n).map .float

def isNumberChar (c : Char) : Bool :=
  c.isDigit || ['.', 'e', 'E', '+', '-'].contains c

/-- the number that a text is; the text may not start with `+` -/
def ofNumberText (s : List Char) : Option Json :=
  if s.head? = some '+' then none else (Numeral.read? s).bind ofNumeral

end StubTemplate.Json
