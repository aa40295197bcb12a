/-
How a finite number is written: a layout chooses between positional and exponent notation and says what marks each.

The digits are those of `Binary64.shortest`, so that what is written reads back.
-/
import StubTemplate.Number.Shortest

namespace StubTemplate

/-- the choices a format makes in writing finite numbers -/
structure Layout where
  /-- whether a number whose first digit has this exponent is written positionally -/
  positional : Int → Bool
  /-- whether a whole number in positional notation ends in `.0` -/
  wholePoint : Bool
  /-- whether a single digit in exponent notation is followed by `.0` -/
  digitPoint : Bool
  /-- the character before the exponent -/
  mark : Char
  /-- the choice between two shortest decimals that are equally near -/
  tie : Tie

namespace Layout

def writePositional (l : Layout) (d : Decimal) : List Char :=
  let digits := d.digitChars
  let places := (-d.exponent).toNat
  if 0 ≤ d.exponent then
    digits ++ List.replicate d.exponent.toNat '0' ++ (if l.wholePoint then ['.', '0'] else [])
  else if places < digits.length then
    digits.take (digits.length - places) ++ '.' :: digits.drop (digits.length - places)
  else
    '0' :: '.' :: List.replicate (places - digits.length) '0' ++ digits

/-- one digit, the point and the other digits, and the exponent with its sign -/
def writeExponent (l : Layout) (d : Decimal) : List Char :=
  let fraction :=
    match d.digitChars.tail with
    | [] => if l.digitPoint then ['.', '0'] else []
    | rest => '.' :: rest
  d.digitChars.take 1 ++ fraction ++ l.mark :: (if d.leading < 0 then '-' else '+')
    :: Nat.toDigits 10 d.leading.natAbs

/-- a decimal in the notation that fits its size -/
def writeDecimal (l : Layout) (d : Decimal) : List Char :=
  if l.positional d.leading then l.writePositional d else l.writeExponent d

def write (l : Layout) (x : Binary64) : List Char :=
  (if x.negative then ['-'] else []) ++ l.writeDecimal (Binary64.shortest l.tie x.rank)

/-- never an exponent, and no point after a whole number -/
def plain : Layout where
  positional _ := true
  wholePoint := false
  digitPoint := false
  mark := 'e'
  tie := .up

end Layout

end StubTemplate
