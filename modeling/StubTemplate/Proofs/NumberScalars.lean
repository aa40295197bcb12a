/-
Which scalars are numbers, and which numbers they are.

`Numeral.Rounds n x`: the double-precision number `x` has the sign of the numeral `n` and the rank nearest to its magnitude.
There is one such number, and it is the one that is computed (`rounds_toBinary64`, `Rounds.eq_toBinary64`). So any parser
that takes every numeral to such a number (`ParsesNearest`) gives the same numbers.

An integer may be found in two ways: from its digits, or, where these do not fit into 64 bits, as the integer part of
the nearest double-precision number. Both come to the bound that is nearest (`integerOf_eq`).

Main result: `scalar_numeral`. A scalar is a number exactly if it is a numeral, and a double-precision one exactly if there
is a point in it; it is then the number that a parser gives, and digits alone give the exact integer cut to 64 bits.
-/
import StubTemplate.Proofs.Numerals
import StubTemplate.Proofs.Rounding

namespace StubTemplate

/-! ## The nearest number -/

namespace Numeral

/-- the magnitude of the decimal number that a numeral stands for -/
def magnitude (n : Numeral) : ℚ := digitsValue n.digits * 10 ^ (n.exponentValue - (n.fraction.getD []).length)

/-- whether a double-precision number is the one nearest to a numeral; of two that are as near it is the even one -/
structure Rounds (n : Numeral) (x : Binary64) : Prop where
  sign : x.negative = n.negative
  nearest : Binary64.Nearest x.rank n.magnitude

theorem rounds_toBinary64 (n : Numeral) : Rounds n n.toBinary64 :=
  ⟨rfl, Binary64.nearest_decimalRank _ _⟩

namespace Rounds

variable {n : Numeral} {x : Binary64}

theorem eq_toBinary64 (h : Rounds n x) : x = n.toBinary64 := by
  have hrank : x.rank = n.toBinary64.rank := h.nearest.unique (rounds_toBinary64 n).nearest
  obtain ⟨negative, rank⟩ := x
  rw [Numeral.toBinary64, Binary64.ofDecimal, Binary64.mk.injEq]
  exact ⟨h.sign, hrank⟩

theorem isNaN_eq_false (h : Rounds n x) : x.isNaN = false :=
  decide_eq_false (Nat.not_lt.2 h.nearest.le_infinity)

end Rounds

/-- whether a parser accepts every numeral and gives the nearest number -/
def ParsesNearest (parse : List Char → Option Binary64) : Prop :=
  ∀ n t, Spells n t → ∃ x, parse t = some x ∧ Rounds n x

/-- the parser that reads a numeral and rounds it -/
def parseNearest (t : List Char) : Option Binary64 := (read? t).map toBinary64

theorem parsesNearest_parseNearest : ParsesNearest parseNearest := by
  intro n t h
  exact ⟨n.toBinary64, Option.map_eq_some_iff.2 ⟨n, h.read?_eq, rfl⟩, rounds_toBinary64 n⟩

theorem ParsesNearest.parse_eq {parse : List Char → Option Binary64} (hparse : ParsesNearest parse) {n : Numeral}
    {t : List Char} (h : Spells n t) : parse t = some n.toBinary64 := by
  obtain ⟨x, hx, hrounds⟩ := hparse n t h
  rw [hx, hrounds.eq_toBinary64]

end Numeral

/-! ## Large numbers -/

/-- the integer with a sign and a magnitude -/
def Numeral.signed (negative : Bool) (m : Nat) : Int := if negative then -m else m

/-- the integer part of what is nearest to a number not below `2 ^ 63` is not below it either -/
theorem Binary64.exists_truncate {x : Binary64} {q : ℚ} (h : Nearest x.rank q) (hq : (Nat.pow 2 63 : Nat) ≤ q) :
    ∃ m : Nat, Nat.pow 2 63 ≤ m ∧ x.truncate (Nat.pow 2 63) = Numeral.signed x.negative m := by
  have hunits : units (1086 * binade) = Nat.pow 2 63 * one := by decide +kernel
  have hmagnitude : magnitude (1086 * binade) = (Nat.pow 2 63 : Nat) := by
    rw [magnitude, hunits, Nat.cast_mul, mul_div_cancel_right₀ _ one_pos.ne']
  have hrank : 1086 * binade ≤ x.rank := h.le_of_magnitude_le (by decide) (hmagnitude.le.trans hq)
  have hle : Nat.pow 2 63 * one ≤ units x.rank := hunits ▸ strictMono_units.monotone hrank
  have hNaN : x.isNaN = false := decide_eq_false (Nat.not_lt.2 h.le_infinity)
  by_cases hfinite : x.isFinite = true
  · refine ⟨units x.rank / one, (Nat.le_div_iff_mul_le (Nat.cast_pos.1 one_pos)).2 hle, ?_⟩
    simp only [truncate, Numeral.signed, hNaN, hfinite, Bool.false_eq_true, if_false, if_true]
  · refine ⟨Nat.pow 2 63, Nat.le_refl _, ?_⟩
    simp only [truncate, Numeral.signed, hNaN, hfinite, Bool.false_eq_true, if_false]

namespace Numeral

theorem signed_fits (negative : Bool) {m : Nat} (h : m < Nat.pow 2 63) :
    Int64.minValue.toInt ≤ signed negative m ∧ signed negative m ≤ Int64.maxValue.toInt := by
  rw [Nat.pow_eq] at h
  rw [Int64.toInt_minValue, Int64.toInt_maxValue]
  unfold signed
  split <;> omega

/-- from the bound on, the magnitude makes no difference -/
theorem clamp_signed_eq {negative : Bool} {m m' : Nat} (h : Nat.pow 2 63 ≤ m) (h' : Nat.pow 2 63 ≤ m') :
    clamp (signed negative m) = clamp (signed negative m') := by
  rw [Nat.pow_eq] at h h'
  unfold clamp signed
  rw [Int64.toInt_minValue, Int64.toInt_maxValue]
  congr 1
  split <;> omega

/-! ## Integers -/

/-- the 64-bit integer that digits after an optional sign spell, if it is one -/
def int64? (t : List Char) : Option Int64 :=
  let (negative, digits) := readSign t
  let i := signed negative (digitsValue digits)
  if digits ≠ [] ∧ digits.all Char.isDigit = true ∧ Int64.minValue.toInt ≤ i ∧ i ≤ Int64.maxValue.toInt then
    some (Int64.ofInt i)
  else none

/-- the 64-bit integer that a text spells, or else the integer part of the number that it is parsed as, cut to 64 bits -/
def integerOf (parse : List Char → Option Binary64) (t : List Char) : Int64 :=
  match int64? t with
  | some i => i
  | none =>
    match parse t with
    | some x => clamp (x.truncate (Nat.pow 2 63))
    | none => 0

theorem spells_of_int64? {t : List Char} {i : Int64} (h : int64? t = some i) :
    ∃ negative digits, Spells ⟨negative, digits, none, none⟩ t ∧ i = clamp (signed negative (digitsValue digits)) := by
  obtain ⟨sign, hsign, ht⟩ := eq_of_readSign t
  simp only [int64?, Option.ite_none_right_eq_some, Option.some.injEq, List.all_eq_true] at h
  obtain ⟨⟨hne, hdigits, hlow, hhigh⟩, hi⟩ := h
  refine ⟨(readSign t).1, (readSign t).2, spells_digits_iff.2 ⟨hne, hdigits, sign, hsign, ht⟩, ?_⟩
  rw [clamp_of_fits hlow hhigh, hi]

/-- digits that do not fit into 64 bits spell a large number -/
theorem le_digitsValue {negative : Bool} {digits t : List Char} (h : Spells ⟨negative, digits, none, none⟩ t)
    (hnone : int64? t = none) : Nat.pow 2 63 ≤ digitsValue digits := by
  obtain ⟨hne, hdigits, sign, hsign, rfl⟩ := spells_digits_iff.1 h
  have hread : readSign (sign ++ digits) = (negative, digits) := by
    apply readSign_append hsign
    intro c hc
    exact ne_sign_of_isDigit (hdigits c (List.mem_of_mem_head? hc))
  simp only [int64?, hread, ite_eq_right_iff, reduceCtorEq, imp_false] at hnone
  by_contra hlt
  exact hnone ⟨hne, List.all_eq_true.2 hdigits, signed_fits negative (Nat.not_le.1 hlt)⟩

/-- the two ways to an integer lead to the same one -/
theorem integerOf_eq {parse : List Char → Option Binary64} (hparse : ParsesNearest parse) {n : Numeral} {t : List Char}
    (h : Spells n t) (hfraction : n.fraction = none) : integerOf parse t = n.toInt64 := by
  unfold integerOf
  cases hint : int64? t with
  | some i =>
    obtain ⟨negative, digits, hdigits, rfl⟩ := spells_of_int64? hint
    rw [h.unique hdigits]
    rfl
  | none =>
    rw [hparse.parse_eq h]
    obtain ⟨negative, whole, fraction, exponent⟩ := n
    obtain rfl : fraction = none := hfraction
    cases exponent with
    | some exponent => rfl
    | none =>
      -- the digits and the number nearest to them lie on the same side, at the bound or beyond it
      have hlarge := le_digitsValue h hint
      have hmagnitude : magnitude ⟨negative, whole, none, none⟩ = digitsValue whole := by
        simp [magnitude, digits, exponentValue]
      obtain ⟨m, hm, htruncate⟩ := Binary64.exists_truncate (rounds_toBinary64 ⟨negative, whole, none, none⟩).nearest
        (by rw [hmagnitude]; exact Nat.cast_le.2 hlarge)
      dsimp only
      rw [htruncate]
      exact clamp_signed_eq hm hlarge

end Numeral

namespace Argument

open Text

/-! ## Scalars -/

theorem scalar_of_spells {s : List Char} {n : Numeral} (h : Numeral.Spells n (trim s)) :
    scalar s = if n.fraction.isSome then .float n.toBinary64 else .int n.toInt64 := by
  obtain ⟨c, rest, hs, hc⟩ := h.exists_cons
  have htrim : trim (c :: rest) = c :: rest := by rw [← hs, trim_trim]
  have hread := h.read?_eq
  rw [← scalar_trim]
  rw [hs] at hread ⊢
  rw [scalar_of_notAlpha htrim hc, hread]

/-- what is no numeral is no number -/
theorem exists_spells_of_scalar {s : List Char} (h : (∃ i, scalar s = .int i) ∨ ∃ x, scalar s = .float x) :
    ∃ n, Numeral.Spells n (trim s) := by
  cases hread : Numeral.read? (trim s) with
  | some n => exact ⟨n, Numeral.spells_of_read? hread⟩
  | none =>
    exfalso
    simp only [scalar, hread] at h
    split_ifs at h
    · simp at h
    · simp at h
    · simp at h
    · cases hquoted : unquote? (trim s) <;> simp [hquoted] at h

theorem scalar_eq_float_iff {s : List Char} {x : Binary64} :
    scalar s = .float x ↔ ∃ n, Numeral.Spells n (trim s) ∧ n.fraction.isSome = true ∧ x = n.toBinary64 := by
  constructor
  · intro hx
    obtain ⟨n, h⟩ := exists_spells_of_scalar (.inr ⟨x, hx⟩)
    rw [scalar_of_spells h] at hx
    split at hx
    · rename_i hfraction
      exact ⟨n, h, hfraction, (Value.float.inj hx).symm⟩
    · cases hx
  · rintro ⟨n, h, hfraction, rfl⟩
    rw [scalar_of_spells h, if_pos hfraction]

theorem scalar_eq_int_iff {s : List Char} {i : Int64} :
    scalar s = .int i ↔ ∃ n, Numeral.Spells n (trim s) ∧ n.fraction = none ∧ i = n.toInt64 := by
  constructor
  · intro hi
    obtain ⟨n, h⟩ := exists_spells_of_scalar (.inl ⟨i, hi⟩)
    rw [scalar_of_spells h] at hi
    split at hi
    · cases hi
    · rename_i hfraction
      exact ⟨n, h, Option.not_isSome_iff_eq_none.1 hfraction, (Value.int.inj hi).symm⟩
  · rintro ⟨n, h, hfraction, rfl⟩
    rw [scalar_of_spells h, hfraction]
    rfl

/--
**Numbers are the numerals.** A scalar is a number exactly if, without the blanks around it, it is a word of the language
of numerals, and a double-precision number exactly if this word also has a point. It is then the number that any parser
gives which accepts the numerals and rounds to the nearest number, and never one that is not a number. An integer is the
one found through such a parser where 64 bits are too few, and after an optional sign digits alone, however many, give the
exact integer cut to 64 bits.
-/
theorem scalar_numeral {parse : List Char → Option Binary64} (hparse : Numeral.ParsesNearest parse) (s : List Char) :
    ((∃ i, scalar s = .int i) ∨ (∃ x, scalar s = .float x) ↔ trim s ∈ Numeral.language) ∧
    ((∃ x, scalar s = .float x) ↔ trim s ∈ Numeral.language ∧ '.' ∈ trim s) ∧
    (∀ x, scalar s = .float x → parse (trim s) = some x ∧ x.isNaN = false) ∧
    (∀ i, scalar s = .int i → i = Numeral.integerOf parse (trim s)) ∧
    ∀ negative, ∀ sign ∈ Numeral.signs negative, ∀ digits ≠ [], (∀ c ∈ digits, c.isDigit = true) →
      trim s = sign ++ digits →
      scalar s = .int (Numeral.clamp (Numeral.signed negative (Numeral.digitsValue digits))) := by
  simp only [Numeral.mem_language_iff]
  refine ⟨⟨exists_spells_of_scalar, ?_⟩, ⟨?_, ?_⟩, ?_, ?_, ?_⟩
  · rintro ⟨n, h⟩
    cases hfraction : n.fraction with
    | none => exact .inl ⟨n.toInt64, scalar_eq_int_iff.2 ⟨n, h, hfraction, rfl⟩⟩
    | some digits => exact .inr ⟨n.toBinary64, scalar_eq_float_iff.2 ⟨n, h, by rw [hfraction]; rfl, rfl⟩⟩
  · rintro ⟨x, hx⟩
    obtain ⟨n, h, hfraction, -⟩ := scalar_eq_float_iff.1 hx
    exact ⟨⟨n, h⟩, h.point_mem_iff.2 hfraction⟩
  · rintro ⟨⟨n, h⟩, hpoint⟩
    exact ⟨n.toBinary64, scalar_eq_float_iff.2 ⟨n, h, h.point_mem_iff.1 hpoint, rfl⟩⟩
  · intro x hx
    obtain ⟨n, h, -, rfl⟩ := scalar_eq_float_iff.1 hx
    exact ⟨hparse.parse_eq h, (Numeral.rounds_toBinary64 n).isNaN_eq_false⟩
  · intro i hi
    obtain ⟨n, h, hfraction, rfl⟩ := scalar_eq_int_iff.1 hi
    exact (Numeral.integerOf_eq hparse h hfraction).symm
  · intro negative sign hsign digits hne hdigits ht
    have h := Numeral.spells_digits_iff.2 ⟨hne, hdigits, sign, hsign, ht⟩
    exact scalar_eq_int_iff.2 ⟨_, h, rfl, rfl⟩

/-- a number with point and exponent between blanks, and digits that are too many for 64 bits -/
theorem scalar_numeral_overflow :
    Numeral.ParsesNearest Numeral.parseNearest ∧ scalar "\t-.5E+1 ".toList = .float ⟨true, 4617315517961601024⟩ ∧
    scalar "-99999999999999999999".toList = .int Int64.minValue ∧
    Numeral.integerOf Numeral.parseNearest "-99999999999999999999".toList = Int64.minValue := by
  obtain ⟨-, hfloat, hparse, -⟩ := scalar_numeral Numeral.parsesNearest_parseNearest "\t-.5E+1 ".toList
  obtain ⟨-, -, -, hinteger, hdigits⟩ :=
    scalar_numeral Numeral.parsesNearest_parseNearest "-99999999999999999999".toList
  have htrim : trim "-99999999999999999999".toList = "-99999999999999999999".toList := by decide +kernel
  have hread : Numeral.read? (trim "\t-.5E+1 ".toList) = some ⟨true, [], some ['5'], some (false, ['1'])⟩ := by
    decide +kernel
  have hlanguage : trim "\t-.5E+1 ".toList ∈ Numeral.language :=
    Numeral.mem_language_iff.2 ⟨_, Numeral.spells_of_read? hread⟩
  obtain ⟨x, hx⟩ := hfloat.2 ⟨hlanguage, by decide +kernel⟩
  have hnearest : Numeral.parseNearest (trim "\t-.5E+1 ".toList) = some ⟨true, 4617315517961601024⟩ := by
    decide +kernel
  have hsmallest : scalar "-99999999999999999999".toList = .int Int64.minValue :=
    hdigits true ['-'] (by decide) "99999999999999999999".toList (by decide) (by decide) htrim
  refine ⟨Numeral.parsesNearest_parseNearest, ?_, hsmallest, ?_⟩
  · rw [hx, ← Option.some.inj ((hparse x hx).1.symm.trans hnearest)]
  · rw [hinteger _ hsmallest, htrim]

end Argument

end StubTemplate
