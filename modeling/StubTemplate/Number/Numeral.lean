/-
Numerals: an optional sign, digits with at most one point, and an optional exponent.

`Numeral.read?` recognises one, which then stands for an exact decimal. A numeral with a point is a double-precision
number, the nearest one. Without a point it is an integer within 64 bits, and the nearest bound when it lies outside;
an exponent takes it through the nearest double-precision number. `ofInt` writes an integer, and `canonicalInt?` reads
exactly what `ofInt` writes.
-/
import StubTemplate.Number.Binary64

namespace StubTemplate

structure Numeral where
  negative : Bool
  /-- the digits before the point -/
  whole : List Char
  /-- the digits after the point, if there is a point -/
  fraction : Option (List Char)
  /-- sign and digits of the exponent, if one is written -/
  exponent : Option (Bool × List Char)
  deriving DecidableEq

namespace Numeral

/-- an optional sign: whether it is a minus, and what follows -/
def readSign : List Char → Bool × List Char
  | '+' :: rest => (false, rest)
  | '-' :: rest => (true, rest)
  | rest => (false, rest)

/-- an exponent that takes up the whole text, or nothing -/
def readExponent : List Char → Option (Option (Bool × List Char))
  | [] => some none
  | mark :: rest =>
    let (negative, digits) := readSign rest
    if (mark = 'e' ∨ mark = 'E') ∧ digits ≠ [] ∧ digits.all Char.isDigit = true then some (some (negative, digits))
    else none

def readFraction : List Char → Option (List Char) × List Char
  | '.' :: rest => (some (rest.takeWhile Char.isDigit), rest.dropWhile Char.isDigit)
  | rest => (none, rest)

def read? (text : List Char) : Option Numeral :=
  let (negative, body) := readSign text
  let whole := body.takeWhile Char.isDigit
  let (fraction, rest) := readFraction (body.dropWhile Char.isDigit)
  if whole = [] ∧ fraction.getD [] = [] then none
  else (readExponent rest).map fun exponent => ⟨negative, whole, fraction, exponent⟩

def digitsValue (digits : List Char) : Nat :=
  Nat.ofDigitChars 10 digits 0

/-- the written exponent, `0` when there is none -/
def exponentValue (n : Numeral) : Int :=
  match n.exponent with
  | none => 0
  | some (negative, digits) => if negative then -(digitsValue digits) else digitsValue digits

def digits (n : Numeral) : List Char :=
  n.whole ++ n.fraction.getD []

def toBinary64 (n : Numeral) : Binary64 :=
  Binary64.ofDecimal n.negative (digitsValue n.digits) (n.exponentValue - (n.fraction.getD []).length)

/-- the plain numeral of an integer: no leading zero, and a sign only if it is negative -/
def ofInt (i : Int) : List Char :=
  (if i < 0 then ['-'] else []) ++ Nat.toDigits 10 i.natAbs

/-- an optional minus: whether it is there, and what follows -/
def readMinus : List Char → Bool × List Char
  | '-' :: rest => (true, rest)
  | rest => (false, rest)

/-- whether digits are those of a plain numeral: no zero comes first, but for zero itself, which has no minus -/
def isPlain (negative : Bool) : List Char → Bool
  | [] => false
  | ['0'] => !negative
  | first :: rest => first != '0' && (first :: rest).all Char.isDigit

/-- the 64-bit integer whose plain numeral the text is -/
def canonicalInt? (text : List Char) : Option Int64 :=
  let (negative, digits) := readMinus text
  let i : Int := if negative then -(digitsValue digits) else digitsValue digits
  if isPlain negative digits = true ∧ Int64.minValue.toInt ≤ i ∧ i ≤ Int64.maxValue.toInt then some (Int64.ofInt i)
  else none

/-- the integer nearest to `i` that 64 bits can hold -/
def clamp (i : Int) : Int64 :=
  Int64.ofInt (max Int64.minValue.toInt (min i Int64.maxValue.toInt))

/-- the 64-bit integer that a numeral without a point stands for -/
def toInt64 (n : Numeral) : Int64 :=
  match n.exponent with
  | none => clamp (if n.negative then -(digitsValue n.whole) else digitsValue n.whole)
  | some _ => clamp (n.toBinary64.truncate (Nat.pow 2 63))

end Numeral

end StubTemplate
