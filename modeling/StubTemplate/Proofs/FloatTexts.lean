/-
The texts of floats in query strings.

The text is put together from the number's scientific and its plain text: the exponent is read off the scientific text,
and if it is out of bounds, the mantissa with a point and the exponent with a sign make the new text. This comes to what
the layout writes (`writeDecimal_eq_fromTexts`), whatever the digits are, as long as the exponent fits into 32 bits, and
the exponent of a finite number is far smaller.

Main result: `write_finite`. The text denotes the same decimal number as the scientific text and reads back, and the
size of the number decides between the two forms.
-/
import StubTemplate.Proofs.Layouts
import StubTemplate.QueryString

namespace StubTemplate

/-! ## Numbers in query strings -/

namespace Text

/-- what stands before the first place of a character, and what stands after it -/
def splitOnce (separator : Char) (s : List Char) : Option (List Char × List Char) :=
  if separator ∈ s then some (s.takeWhile (· != separator), (s.dropWhile (· != separator)).tail) else none

theorem splitOnce_append {separator : Char} {before after : List Char} (h : separator ∉ before) :
    splitOnce separator (before ++ separator :: after) = some (before, after) := by
  have hbefore : ∀ c ∈ before, (c != separator) = true := by
    intro c hc
    rw [bne_iff_ne]
    exact fun he => h (he ▸ hc)
  rw [splitOnce, if_pos (by simp), List.takeWhile_append_of_pos hbefore, List.dropWhile_append_of_pos hbefore]
  simp

end Text

namespace Numeral

/-- the integer within 32 bits that digits after an optional sign spell -/
def int32? (t : List Char) : Option Int :=
  ((int64? t).map Int64.toInt).filter fun i => decide (Int32.minValue.toInt ≤ i ∧ i ≤ Int32.maxValue.toInt)

theorem int32?_ofInt {i : Int} (hlow : Int32.minValue.toInt ≤ i) (hhigh : i ≤ Int32.maxValue.toInt) :
    int32? (ofInt i) = some i := by
  have hbounds : -2 ^ 31 ≤ i ∧ i ≤ 2 ^ 31 - 1 := ⟨hlow, hhigh⟩
  have hsigned : signed (decide (i < 0)) (digitsValue (Nat.toDigits 10 i.natAbs)) = i := by
    rw [signed, digitsValue, Nat.ofDigitChars_ten_toDigits]
    simp only [decide_eq_true_eq]
    split <;> omega
  have hint : int64? (ofInt i) = some (Int64.ofInt i) := by
    have hfits : Int64.minValue.toInt ≤ i ∧ i ≤ Int64.maxValue.toInt := by
      rw [Int64.toInt_minValue, Int64.toInt_maxValue]
      omega
    simp only [int64?, readSign_ofInt, hsigned]
    exact if_pos ⟨Nat.toDigits_ne_nil, List.all_eq_true.2 isDigit_toDigits, hfits⟩
  rw [int32?, hint, Option.map_some, Int64.toInt_ofInt_of_le (by omega) (by omega), Option.filter_some,
    if_pos (decide_eq_true ⟨hlow, hhigh⟩)]

end Numeral

namespace QueryString

open Layout (minus)
open Numeral (Denotes Spells)

/-- a decimal in scientific notation: no point after a single digit, no sign before an exponent that is not negative -/
def scientificDecimal (d : Decimal) : List Char :=
  d.digitChars.take 1 ++ (Numeral.fractionText (Layout.otherDigits false d) ++ 'e' :: Numeral.ofInt d.leading)

/-- a finite number in scientific notation -/
def scientific (x : Binary64) : List Char :=
  minus x.negative ++ scientificDecimal (Binary64.shortest .up x.rank)

/-- a number's text, from its scientific and its plain one -/
def fromTexts (scientific plain : List Char) : List Char :=
  match Text.splitOnce 'e' scientific with
  | none => plain
  | some (mantissa, exponent) =>
    match Numeral.int32? exponent with
    | none => plain
    | some e =>
      if -4 ≤ e ∧ e < 15 then plain
      else
        mantissa ++ (if '.' ∈ mantissa then [] else ['.', '0'])
          ++ 'E' :: (if e < 0 then '-' else '+') :: Nat.toDigits 10 e.natAbs

theorem spells_scientific (negative : Bool) (d : Decimal) :
    Spells (Layout.exponentNumeral false negative d) (minus negative ++ scientificDecimal d) ∧
      (Layout.exponentNumeral false negative d).magnitude = d.value := by
  have hsign : (if d.leading < 0 then ['-'] else []) ∈ Numeral.signs (decide (d.leading < 0)) := by
    by_cases h : d.leading < 0 <;> simp [h, Numeral.signs]
  exact Layout.spells_exponentNumeral false negative d (by simp) hsign

/-- what stands before the exponent in scientific notation -/
def mantissa (negative : Bool) (d : Decimal) : List Char :=
  minus negative ++ (d.digitChars.take 1 ++ Numeral.fractionText (Layout.otherDigits false d))

theorem scientificDecimal_eq (negative : Bool) (d : Decimal) :
    minus negative ++ scientificDecimal d = mantissa negative d ++ 'e' :: Numeral.ofInt d.leading := by
  simp [scientificDecimal, mantissa]

theorem spells_mantissa (negative : Bool) (d : Decimal) :
    Spells ⟨negative, d.digitChars.take 1, Layout.otherDigits false d, none⟩ (mantissa negative d) := by
  obtain ⟨hnonempty, hdigit, -⟩ := (spells_scientific negative d).1
  exact ⟨hnonempty, hdigit, _, Layout.minus_mem_signs negative, [], rfl, by rw [List.append_nil]; rfl⟩

theorem mark_notMem_mantissa (negative : Bool) (d : Decimal) : 'e' ∉ mantissa negative d := by
  have hspells := spells_mantissa negative d
  have hdigit : 'e' ∉ d.digitChars.take 1 ++ (Layout.otherDigits false d).getD [] :=
    fun hmem => absurd (hspells.isDigit 'e' hmem) (by decide)
  have hminus : 'e' ∉ minus negative := by cases negative <;> decide
  rw [List.mem_append, not_or] at hdigit
  unfold mantissa
  cases hothers : Layout.otherDigits false d with
  | none => simp [hminus, hdigit.1, Numeral.fractionText]
  | some others =>
    rw [hothers] at hdigit
    simpa [hminus, hdigit.1, Numeral.fractionText] using hdigit.2

/-- the digits after a point, or a point and a zero where there is none yet -/
theorem mantissa_point (negative : Bool) (d : Decimal) :
    mantissa negative d ++ (if '.' ∈ mantissa negative d then [] else ['.', '0']) =
      minus negative ++ (d.digitChars.take 1 ++ Numeral.fractionText (Layout.otherDigits true d)) := by
  simp only [(spells_mantissa negative d).point_mem_iff]
  unfold mantissa Layout.otherDigits
  cases d.digitChars.tail <;> simp [Numeral.fractionText]

/-- the text is put together from the two texts of a decimal, as long as the exponent is small enough to be read -/
theorem writeDecimal_eq_fromTexts (negative : Bool) {d : Decimal} (hlow : Int32.minValue.toInt ≤ d.leading)
    (hhigh : d.leading ≤ Int32.maxValue.toInt) : minus negative ++ floatLayout.writeDecimal d =
      fromTexts (minus negative ++ scientificDecimal d) (minus negative ++ Layout.plain.writeDecimal d) := by
  have hpositional : floatLayout.positional d.leading = decide (-4 ≤ d.leading ∧ d.leading < 15) := rfl
  rw [scientificDecimal_eq, fromTexts, Text.splitOnce_append (mark_notMem_mantissa negative d)]
  simp only [Numeral.int32?_ofInt hlow hhigh, Layout.writeDecimal, hpositional, decide_eq_true_eq]
  by_cases h : -4 ≤ d.leading ∧ d.leading < 15
  · rw [if_pos h, if_pos h]
    rfl
  · rw [if_neg h, if_neg h, mantissa_point, Layout.writeExponent_eq]
    by_cases hsign : d.leading < 0 <;> simp [hsign, floatLayout]

/-- the exponent of the first digit decides between the two forms -/
theorem writeDecimal_mem_iff (negative : Bool) {d : Decimal} (hd : d = ⟨0, 0⟩ ∨ d.digits % 10 ≠ 0) :
    (minus negative ++ floatLayout.writeDecimal d ∈ Numeral.exponentForm ↔ d.leading < -4 ∨ 15 ≤ d.leading) ∧
    (minus negative ++ floatLayout.writeDecimal d ∈ Numeral.plainForm ↔ -4 ≤ d.leading ∧ d.leading < 15) := by
  have hpositional : floatLayout.positional d.leading = decide (-4 ≤ d.leading ∧ d.leading < 15) := rfl
  rw [Layout.writeDecimal, hpositional]
  by_cases h : -4 ≤ d.leading ∧ d.leading < 15
  · have hplain : minus negative ++ floatLayout.writePositional d ∈ Numeral.plainForm := Layout.writePositional_mem rfl hd
    rw [if_pos (decide_eq_true h)]
    exact ⟨iff_of_false (Numeral.notMem_exponentForm hplain) (by omega), iff_of_true hplain h⟩
  · have hdigits : d.digits ≠ 0 := by
      rcases hd with rfl | hd
      · exact absurd (by decide) h
      · omega
    have hexponent : minus negative ++ floatLayout.writeExponent d ∈ Numeral.exponentForm :=
      Layout.writeExponent_mem rfl rfl hdigits (by omega)
    rw [if_neg (by simpa using h)]
    exact ⟨iff_of_true hexponent (by omega), iff_of_false (fun hp => Numeral.notMem_exponentForm hp hexponent) h⟩

theorem div_le_magnitude {num den rank : Nat} (hden : 0 < den)
    (h : num * Binary64.one ≤ Binary64.units rank * den) : (num / den : ℚ) ≤ Binary64.magnitude rank := by
  rw [Binary64.magnitude, div_le_div_iff₀ (Nat.cast_pos.2 hden) Binary64.one_pos]
  exact_mod_cast h

theorem le_magnitude_fifteen : (10 : ℚ) ^ (15 : Int) ≤ Binary64.magnitude (Binary64.decimalRank 1 15) := by
  have h : 10 ^ 15 * Binary64.one ≤ Binary64.units (Binary64.decimalRank 1 15) * 1 := by decide +kernel
  refine le_trans ?_ (div_le_magnitude Nat.one_pos h)
  norm_num

theorem le_magnitude_minus_four : (10 : ℚ) ^ (-4 : Int) ≤ Binary64.magnitude (Binary64.decimalRank 1 (-4)) := by
  have h : 1 * Binary64.one ≤ Binary64.units (Binary64.decimalRank 1 (-4)) * 10 ^ 4 := by decide +kernel
  have hden : 0 < 10 ^ 4 := by decide
  refine le_trans ?_ (div_le_magnitude hden h)
  norm_num

/-- the exponent of the first digit leaves the bounds exactly if the magnitude does -/
theorem leading_outside_iff {rank : Nat} (hrank : rank < Binary64.infinityRank) :
    (Binary64.shortest .up rank).leading < -4 ∨ 15 ≤ (Binary64.shortest .up rank).leading ↔
      rank ≠ 0 ∧ (Binary64.magnitude rank < 10 ^ (-4 : Int) ∨ 10 ^ (15 : Int) ≤ Binary64.magnitude rank) := by
  by_cases hne : rank = 0
  · rw [hne, Binary64.shortest_zero]
    exact iff_of_false (by decide) (by simp)
  · have hlow := Binary64.le_leading_iff .up hrank.le hne le_magnitude_minus_four
    have hhigh := Binary64.le_leading_iff .up hrank.le hne le_magnitude_fifteen
    rw [← not_le, hlow, hhigh, not_le]
    exact (and_iff_right hne).symm

/--
**A float in a query string keeps its value.** Its text is put together from the scientific and the plain text of the
number. It stands for the same decimal number as the scientific text, whose digits are as few as read back, so any parser
takes it back to the number, and no two numbers have the same text. It has an exponent, with a point before and a sign
after the mark, exactly if the exponent of the scientific text is below `-4` or at least `15`, which is if the magnitude
is not zero and below `0.0001` or not below `10 ^ 15`. Otherwise it is a plain decimal, without an exponent and without a
zero at the end of a fraction.
-/
theorem write_finite {x : Binary64} (hx : x.isFinite = true) :
    floatLayout.write x = fromTexts (scientific x) (Layout.plain.write x) ∧
    (∃ m n, Numeral.read? (scientific x) = some m ∧ Numeral.read? (floatLayout.write x) = some n ∧
      n.negative = m.negative ∧ n.magnitude = m.magnitude ∧
      (∀ d, Binary64.readsBack x.rank d = true → m.digits.length ≤ d.digitChars.length) ∧
      (floatLayout.write x ∈ Numeral.exponentForm ↔ m.exponentValue < -4 ∨ 15 ≤ m.exponentValue) ∧
      (floatLayout.write x ∈ Numeral.plainForm ↔ -4 ≤ m.exponentValue ∧ m.exponentValue < 15)) ∧
    (floatLayout.write x ∈ Numeral.exponentForm ↔
      x.rank ≠ 0 ∧ (Binary64.magnitude x.rank < 10 ^ (-4 : Int) ∨ 10 ^ (15 : Int) ≤ Binary64.magnitude x.rank)) ∧
    (∀ parse, Numeral.ParsesNearest parse → parse (floatLayout.write x) = some x) ∧
    ∀ y, y.isFinite = true → floatLayout.write y = floatLayout.write x → y = x := by
  have hrank : x.rank < Binary64.infinityRank := of_decide_eq_true hx
  obtain ⟨hlow, hhigh⟩ := Binary64.leading_bounds .up hrank
  have hint : Int32.minValue.toInt ≤ -331 ∧ 309 ≤ Int32.maxValue.toInt := by decide
  obtain ⟨-, hdigits, hshortest⟩ := Binary64.shortest_spec .up hrank.le
  obtain ⟨hexponent, hplain⟩ := writeDecimal_mem_iff x.negative hdigits
  have hreads : ∀ parse, Numeral.ParsesNearest parse → ∀ y, y.isFinite = true → parse (floatLayout.write y) = some y :=
    fun _ hparse _ hy => Layout.parse_write (by decide) hy hparse
  refine ⟨?_, ?_, ?_, fun parse hparse => hreads parse hparse x hx, ?_⟩
  · exact writeDecimal_eq_fromTexts x.negative (hint.1.trans hlow) (hhigh.trans hint.2)
  · obtain ⟨hscientific, hvalue⟩ := spells_scientific x.negative (Binary64.shortest .up x.rank)
    have hwritten : Denotes (floatLayout.write x) x.negative _ := Layout.denotes_writeDecimal (by decide)
    obtain ⟨n, hn, hnegative, hmagnitude⟩ := hwritten
    refine ⟨_, n, hscientific.read?_eq, hn.read?_eq, hnegative, hmagnitude.trans hvalue.symm, ?_⟩
    rw [Layout.exponentValue_exponentNumeral, Layout.digits_exponentNumeral]
    exact ⟨hshortest, hexponent, hplain⟩
  · exact hexponent.trans (leading_outside_iff hrank)
  · intro y hy heq
    have hread := hreads _ Numeral.parsesNearest_parseNearest y hy
    rw [heq, hreads _ Numeral.parsesNearest_parseNearest x hx] at hread
    exact (Option.some.inj hread).symm

/-- the number nearest to `-0.00000015` is written with an exponent, and the one nearest to `0.0001` without -/
theorem write_finite_small :
    (scientific ⟨true, 4504762867522569078⟩ = "-1.5e-7".toList ∧
      floatLayout.write ⟨true, 4504762867522569078⟩ = "-1.5E-7".toList ∧ "-1.5E-7".toList ∈ Numeral.exponentForm ∧
      Numeral.parseNearest "-1.5E-7".toList = some ⟨true, 4504762867522569078⟩) ∧
    scientific ⟨false, 4547007122018943789⟩ = "1e-4".toList ∧
      floatLayout.write ⟨false, 4547007122018943789⟩ = "0.0001".toList ∧ "0.0001".toList ∈ Numeral.plainForm := by
  have hshort : ∀ rank d, rank ≠ 0 → Binary64.shortestFrom .up rank (Binary64.leadingExponent rank) 17 = d →
      d.digits % 10 ≠ 0 → Binary64.shortest .up rank = d := by
    intro rank d hne hfrom hdigits
    rw [Binary64.shortest, if_neg hne, hfrom, Decimal.strip, if_neg fun h => hdigits h.2]
  have hfirst : Binary64.shortest .up 4504762867522569078 = ⟨15, -8⟩ :=
    hshort _ _ (by decide) (by decide +kernel) (by decide)
  have hsecond : Binary64.shortest .up 4547007122018943789 = ⟨1, -4⟩ :=
    hshort _ _ (by decide) (by decide +kernel) (by decide)
  have hscientific : scientific ⟨true, 4504762867522569078⟩ = "-1.5e-7".toList := by
    rw [scientific, hfirst]
    decide
  have hscientific' : scientific ⟨false, 4547007122018943789⟩ = "1e-4".toList := by
    rw [scientific, hsecond]
    decide
  have hexponent : floatLayout.write ⟨true, 4504762867522569078⟩ = "-1.5E-7".toList := by
    rw [Layout.write, floatLayout, hfirst]
    decide
  have hplain : floatLayout.write ⟨false, 4547007122018943789⟩ = "0.0001".toList := by
    rw [Layout.write, floatLayout, hsecond]
    decide
  obtain ⟨-, ⟨m, -, hm, -, -, -, -, hform, -⟩, -, hparse, -⟩ :=
    write_finite (x := ⟨true, 4504762867522569078⟩) (by decide)
  obtain ⟨-, ⟨m', -, hm', -, -, -, -, -, hform'⟩, -⟩ := write_finite (x := ⟨false, 4547007122018943789⟩) (by decide)
  have hread : Numeral.read? "-1.5e-7".toList = some ⟨true, ['1'], some ['5'], some (true, ['7'])⟩ := by decide
  have hread' : Numeral.read? "1e-4".toList = some ⟨false, ['1'], none, some (true, ['4'])⟩ := by decide
  rw [hscientific, hread] at hm
  rw [hscientific', hread'] at hm'
  obtain rfl := Option.some.inj hm
  obtain rfl := Option.some.inj hm'
  rw [hexponent] at hform hparse
  rw [hplain] at hform'
  exact ⟨⟨hscientific, hexponent, hform.2 (by decide), hparse _ Numeral.parsesNearest_parseNearest⟩, hscientific', hplain,
    hform'.2 (by decide)⟩

end QueryString

end StubTemplate
