/-
How layouts write decimals, and what the texts denote.

`Denotes t negative q`: the text `t` is a numeral with this sign and the magnitude `q`. Whatever the layout, a decimal
is written with its own digits and at most zeros before and after them, so the text denotes the decimal's value
(`denotes_writeDecimal`), and the text of a finite number reads back (`parse_write`).

A text in `plainForm` has no exponent and no zero at the end of its fraction; one in `exponentForm` has a point, an
exponent and a sign before the exponent's digits. A decimal that does not end in a zero is written in one form or in the
other, as the layout chooses (`writePositional_mem`, `writeExponent_mem`), and never in both (`notMem_exponentForm`).
-/
import StubTemplate.Number.Layout
import StubTemplate.Proofs.NumberScalars
import StubTemplate.Proofs.ShortestDecimals

namespace StubTemplate

/-! ## What a text denotes -/

namespace Numeral

/-- whether a text is a numeral of this sign and magnitude -/
def Denotes (t : List Char) (negative : Bool) (q : ℚ) : Prop :=
  ∃ n, Spells n t ∧ n.negative = negative ∧ n.magnitude = q

theorem Denotes.parse_eq {t : List Char} {x : Binary64} {q : ℚ} (h : Denotes t x.negative q)
    (hq : Binary64.Nearest x.rank q) {parse : List Char → Option Binary64} (hparse : ParsesNearest parse) :
    parse t = some x := by
  obtain ⟨n, hspells, hnegative, rfl⟩ := h
  rw [hparse.parse_eq hspells, Rounds.eq_toBinary64 ⟨hnegative.symm, hq⟩]

theorem digitsValue_replicate_append (k : Nat) (s : List Char) :
    digitsValue (List.replicate k '0' ++ s) = digitsValue s := by
  have hzeros : Nat.ofDigitChars 10 (List.replicate k '0') 0 = 0 := by
    induction k with
    | zero => rfl
    | succ k ih => rwa [List.replicate_succ, Nat.ofDigitChars_cons]
  rw [digitsValue, Nat.ofDigitChars_append, hzeros, digitsValue]

theorem digitsValue_append_replicate (s : List Char) (k : Nat) :
    digitsValue (s ++ List.replicate k '0') = digitsValue s * 10 ^ k := by
  induction k with
  | zero => simp
  | succ k ih =>
    rw [List.replicate_succ', ← List.append_assoc, digitsValue, Nat.ofDigitChars_append, ← digitsValue, ih,
      Nat.ofDigitChars_cons, Nat.ofDigitChars_nil, Nat.pow_succ]
    simp only [Nat.sub_self, Nat.add_zero]
    ring

theorem isDigit_zeros {k : Nat} : ∀ c ∈ List.replicate k '0', c.isDigit = true := by
  intro c hc
  rw [List.eq_of_mem_replicate hc]
  rfl

/-- a numeral with the digits of a decimal, and zeros before and after them, stands for the decimal's value -/
theorem spells_value {n : Numeral} {t : List Char} {d : Decimal} (before after : Nat)
    (hdigits : n.digits = List.replicate before '0' ++ (d.digitChars ++ List.replicate after '0'))
    (hexponent : n.exponentValue - (n.fraction.getD []).length = d.exponent - after)
    (htext : ∃ sign ∈ signs n.negative, ∃ exponent, SpellsExponent n.exponent exponent ∧
      t = sign ++ (n.whole ++ (fractionText n.fraction ++ exponent))) :
    Spells n t ∧ n.magnitude = d.value := by
  have hdigit : ∀ c ∈ n.digits, c.isDigit = true := by
    rw [hdigits, List.forall_mem_append, List.forall_mem_append]
    exact ⟨isDigit_zeros, isDigit_toDigits, isDigit_zeros⟩
  refine ⟨⟨?_, hdigit, htext⟩, ?_⟩
  · simp [hdigits, Decimal.digitChars, Nat.toDigits_ne_nil]
  · rw [magnitude, hdigits, hexponent, digitsValue_replicate_append, digitsValue_append_replicate, Decimal.digitChars,
      digitsValue, Nat.ofDigitChars_ten_toDigits, Decimal.value, zpow_sub₀ (by norm_num), zpow_natCast]
    push_cast
    rw [mul_assoc, mul_comm _ (_ / _), div_mul_cancel₀ _ (by positivity)]

end Numeral

/-! ## What a layout writes -/

namespace Layout

open Numeral (Denotes Spells signs fractionText digitsValue)

/-- a minus, or nothing -/
def minus (negative : Bool) : List Char := if negative then ['-'] else []

theorem minus_mem_signs (negative : Bool) : minus negative ∈ signs negative := by cases negative <;> simp [minus, signs]

/-- the digits after the first one; `point` puts a zero for them if there are none -/
def otherDigits (point : Bool) (d : Decimal) : Option (List Char) :=
  match d.digitChars.tail with
  | [] => if point then some ['0'] else none
  | rest => some rest

theorem exists_otherDigits_eq (point : Bool) (d : Decimal) : ∃ k : Nat, (point = false → k = 0) ∧
    d.digitChars.take 1 ++ (otherDigits point d).getD [] = d.digitChars ++ List.replicate k '0' ∧
      (d.digitChars.length : Int) - 1 - ((otherDigits point d).getD []).length = -k := by
  have hpos := d.length_digitChars_pos
  unfold otherDigits
  cases hdigits : d.digitChars with
  | nil => simp [hdigits] at hpos
  | cons first rest =>
    cases rest with
    | nil =>
      cases point with
      | false => exact ⟨0, by simp, by simp, by simp⟩
      | true => exact ⟨1, by simp, by simp, by simp⟩
    | cons second rest => exact ⟨0, by simp, by simp, by simp⟩

/-- a decimal in exponent notation, with its sign -/
def exponentNumeral (point negative : Bool) (d : Decimal) : Numeral where
  negative := negative
  whole := d.digitChars.take 1
  fraction := otherDigits point d
  exponent := some (decide (d.leading < 0), Nat.toDigits 10 d.leading.natAbs)

theorem exponentValue_exponentNumeral (point negative : Bool) (d : Decimal) :
    (exponentNumeral point negative d).exponentValue = d.leading := by
  simp only [Numeral.exponentValue, exponentNumeral, digitsValue, Nat.ofDigitChars_ten_toDigits, decide_eq_true_eq]
  split <;> omega

theorem digits_exponentNumeral (negative : Bool) (d : Decimal) :
    (exponentNumeral false negative d).digits = d.digitChars := by
  obtain ⟨k, hk, hdigits, -⟩ := exists_otherDigits_eq false d
  rw [hk rfl, List.replicate_zero, List.append_nil] at hdigits
  exact hdigits

theorem spells_exponentNumeral (point negative : Bool) (d : Decimal) {mark : Char} (hmark : mark ∈ ['e', 'E'])
    {sign : List Char} (hsign : sign ∈ signs (decide (d.leading < 0))) :
    Spells (exponentNumeral point negative d) (minus negative ++ (d.digitChars.take 1 ++
        (fractionText (otherDigits point d) ++ mark :: (sign ++ Nat.toDigits 10 d.leading.natAbs)))) ∧
      (exponentNumeral point negative d).magnitude = d.value := by
  obtain ⟨k, -, hdigits, hlength⟩ := exists_otherDigits_eq point d
  refine Numeral.spells_value 0 k hdigits ?_ ?_
  · rw [exponentValue_exponentNumeral, Decimal.leading]
    simp only [exponentNumeral]
    omega
  · refine ⟨_, minus_mem_signs negative, _, ⟨Nat.toDigits_ne_nil, ?_, mark, hmark, sign, hsign, rfl⟩, rfl⟩
    exact Numeral.isDigit_toDigits

variable {l : Layout} {d : Decimal} {negative : Bool}

theorem writeExponent_eq (l : Layout) (d : Decimal) : l.writeExponent d = d.digitChars.take 1 ++
    (fractionText (otherDigits l.digitPoint d) ++
      l.mark :: ((if d.leading < 0 then ['-'] else ['+']) ++ Nat.toDigits 10 d.leading.natAbs)) := by
  have hsign : (if d.leading < 0 then ['-'] else ['+']) = [if d.leading < 0 then '-' else '+'] := by split <;> rfl
  rw [hsign]
  unfold writeExponent otherDigits
  cases d.digitChars.tail with
  | nil => cases l.digitPoint <;> simp [fractionText]
  | cons c rest => simp [fractionText]

theorem denotes_writeExponent (hmark : l.mark ∈ ['e', 'E']) :
    Denotes (minus negative ++ l.writeExponent d) negative d.value := by
  have hsign : (if d.leading < 0 then ['-'] else ['+']) ∈ signs (decide (d.leading < 0)) := by
    by_cases h : d.leading < 0 <;> simp [h, signs]
  obtain ⟨hspells, hvalue⟩ := spells_exponentNumeral l.digitPoint negative d hmark hsign
  rw [writeExponent_eq]
  exact ⟨_, hspells, rfl, hvalue⟩

/-- without an exponent the point stands as many places from the end as the decimal's exponent says -/
theorem denotes_point (whole : List Char) (fraction : Option (List Char)) (before after : Nat)
    (hdigits : whole ++ fraction.getD [] = List.replicate before '0' ++ (d.digitChars ++ List.replicate after '0'))
    (hplaces : -((fraction.getD []).length : Int) = d.exponent - after) :
    Denotes (minus negative ++ (whole ++ fractionText fraction)) negative d.value := by
  let n : Numeral := ⟨negative, whole, fraction, none⟩
  have hexponent : n.exponentValue - ((fraction.getD []).length : Int) = d.exponent - after := by
    rw [← hplaces, Numeral.exponentValue, Int.zero_sub]
  obtain ⟨hspells, hvalue⟩ := Numeral.spells_value (n := n) before after hdigits hexponent
    ⟨_, minus_mem_signs negative, [], rfl, rfl⟩
  rw [List.append_nil] at hspells
  exact ⟨n, hspells, rfl, hvalue⟩

theorem denotes_writePositional : Denotes (minus negative ++ l.writePositional d) negative d.value := by
  have hpoint : ∀ digits : List Char, '.' :: digits = fractionText (some digits) := fun _ => rfl
  unfold writePositional
  dsimp only
  split
  · rename_i hexponent
    cases l.wholePoint with
    | true =>
      simp only [if_true, hpoint]
      apply denotes_point _ _ 0 (d.exponent.toNat + 1)
      · simp [List.replicate_succ']
      · rw [Option.getD_some, List.length_singleton]
        omega
    | false =>
      simp only [Bool.false_eq_true, if_false]
      apply denotes_point _ none 0 d.exponent.toNat
      · simp
      · rw [Option.getD_none, List.length_nil]
        omega
  · rename_i hexponent
    split
    · rw [hpoint]
      apply denotes_point _ _ 0 0
      · simp
      · rw [Option.getD_some, List.length_drop]
        omega
    · rw [List.cons_append, List.cons_append, hpoint]
      apply denotes_point ['0'] _ ((-d.exponent).toNat - d.digitChars.length + 1) 0
      · simp [List.replicate_succ]
      · rw [Option.getD_some, List.length_append, List.length_replicate]
        omega

/-- whatever the layout, a decimal is written as a numeral that stands for its value -/
theorem denotes_writeDecimal (hmark : l.mark ∈ ['e', 'E']) :
    Denotes (minus negative ++ l.writeDecimal d) negative d.value := by
  unfold writeDecimal
  split
  · exact denotes_writePositional
  · exact denotes_writeExponent hmark

/-- what is written of a finite number reads back -/
theorem parse_write (hmark : l.mark ∈ ['e', 'E']) {x : Binary64} (hx : x.isFinite = true)
    {parse : List Char → Option Binary64} (hparse : Numeral.ParsesNearest parse) : parse (l.write x) = some x := by
  have hrank : x.rank < Binary64.infinityRank := of_decide_eq_true hx
  exact (denotes_writeDecimal hmark).parse_eq (Binary64.nearest_shortest l.tie hrank.le) hparse

end Layout

/-! ## Plain decimals and decimals with an exponent -/

namespace Numeral

open scoped Computability

/-- `-?` -/
def optionalMinus : Language Char := 1 + oneOf [('-', '-')]

/-- `[1-9]` -/
def positiveDigit : Language Char := oneOf [('1', '9')]

/-- `[1-9][0-9]*` -/
def positive : Language Char := positiveDigit * digit∗

/-- `\.[0-9]*[1-9]` -/
def decimalPlaces : Language Char := oneOf [('.', '.')] * (digit∗ * positiveDigit)

/-- `E[+-][1-9][0-9]*` -/
def signedExponent : Language Char := oneOf [('E', 'E')] * oneOf [('+', '+'), ('-', '-')] * positive

/-- decimals without an exponent, and without a zero at the end after a point: `-?(0|[1-9][0-9]*)(\.[0-9]*[1-9])?` -/
def plainForm : Language Char := optionalMinus * (oneOf [('0', '0')] + positive) * (1 + decimalPlaces)

/-- decimals with a point and a signed exponent: `-?[1-9]\.[0-9]+E[+-][1-9][0-9]*` -/
def exponentForm : Language Char :=
  optionalMinus * (positiveDigit * oneOf [('.', '.')] * (digit * digit∗)) * signedExponent

theorem mem_positiveDigit {c : Char} (h : c.isDigit = true) (hzero : c ≠ '0') : [c] ∈ positiveDigit := by
  refine ⟨c, rfl, ('1', '9'), List.mem_singleton.2 rfl, ?_⟩
  rw [Ne, ← Char.toNat_inj] at hzero
  rw [Text.isDigit_iff] at h
  simp only [le_iff_toNat_le]
  have hone : ('0' : Char).toNat = 48 ∧ ('1' : Char).toNat = 49 ∧ ('9' : Char).toNat = 57 := by decide
  omega

theorem mem_positive {s : List Char} (hne : s ≠ []) (hdigits : ∀ c ∈ s, c.isDigit = true) (hhead : s.head? ≠ some '0') :
    s ∈ positive := by
  obtain ⟨c, rest, rfl⟩ := List.exists_cons_of_ne_nil hne
  obtain ⟨hc, hrest⟩ := List.forall_mem_cons.1 hdigits
  have hzero : c ≠ '0' := fun he => hhead (congrArg some he)
  exact Language.mem_mul.2 ⟨[c], mem_positiveDigit hc hzero, rest, mem_digits_iff.2 hrest, rfl⟩

theorem mem_decimalPlaces {s : List Char} (hne : s ≠ []) (hdigits : ∀ c ∈ s, c.isDigit = true)
    (hlast : s.getLast? ≠ some '0') : '.' :: s ∈ decimalPlaces := by
  obtain rfl | ⟨init, c, rfl⟩ := List.eq_nil_or_concat s
  · exact absurd rfl hne
  · rw [List.concat_eq_append] at hdigits hlast ⊢
    have hzero : c ≠ '0' := fun he => hlast (by simp [he])
    have hc := mem_positiveDigit (hdigits c (by simp)) hzero
    have hinit := mem_digits_iff.2 fun d hd => hdigits d (List.mem_append_left _ hd)
    exact Language.mem_mul.2 ⟨['.'], mem_point_iff.2 rfl, _, Language.mem_mul.2 ⟨init, hinit, [c], hc, rfl⟩, rfl⟩

theorem minus_mem_optionalMinus (negative : Bool) : Layout.minus negative ∈ optionalMinus := by
  refine (Language.mem_add _ _ _).2 ?_
  cases negative with
  | false => exact .inl Language.nil_mem_one
  | true => exact .inr ((mem_oneOf_singletons ['-']).2 ⟨'-', by simp, rfl⟩)

/-- there is no mark in a plain decimal -/
theorem avoids_plainForm : Avoids 'E' plainForm := by
  have hdigit : Avoids 'E' digit := .oneOf (by decide)
  have hpositive : Avoids 'E' positiveDigit := .oneOf (by decide)
  have hplaces : Avoids 'E' decimalPlaces := .mul (.oneOf (by decide)) (.mul hdigit.kstar hpositive)
  have hminus : Avoids 'E' optionalMinus := .add .one (.oneOf (by decide))
  exact .mul (.mul hminus (.add (.oneOf (by decide)) (hpositive.mul hdigit.kstar))) (.add .one hplaces)

theorem mark_mem_of_exponentForm {s : List Char} (h : s ∈ exponentForm) : 'E' ∈ s := by
  obtain ⟨front, -, back, hback, rfl⟩ := Language.mem_mul.1 h
  obtain ⟨marked, hmarked, digits, -, rfl⟩ := Language.mem_mul.1 hback
  obtain ⟨mark, hmark, sign, -, rfl⟩ := Language.mem_mul.1 hmarked
  have hmark : mark = ['E'] := by simpa using (mem_oneOf_singletons ['E']).1 hmark
  simp [hmark]

/-- no decimal is written in both ways -/
theorem notMem_exponentForm {s : List Char} (h : s ∈ plainForm) : s ∉ exponentForm :=
  fun hs => avoids_plainForm s h (mark_mem_of_exponentForm hs)

end Numeral

namespace Layout

open Numeral (Denotes signs fractionText digitsValue exponentForm plainForm)
open scoped Computability

variable {l : Layout} {d : Decimal} {negative : Bool}

theorem exists_digitChars_eq (hdigits : d.digits ≠ 0) : ∃ c rest, d.digitChars = c :: rest ∧ c ≠ '0' ∧
    c.isDigit = true ∧ ∀ c ∈ rest, c.isDigit = true := by
  obtain ⟨c, rest, hchars⟩ := List.exists_cons_of_ne_nil (Nat.toDigits_ne_nil (b := 10) (n := d.digits))
  have hhead := Numeral.head?_toDigits_ne (Nat.pos_of_ne_zero hdigits)
  have hall := Numeral.isDigit_toDigits (n := d.digits)
  rw [hchars] at hhead hall
  obtain ⟨hc, hrest⟩ := List.forall_mem_cons.1 hall
  exact ⟨c, rest, hchars, fun he => hhead (congrArg some he), hc, hrest⟩

theorem exists_otherDigits (hdigits : d.digits ≠ 0) :
    ∃ others, otherDigits true d = some others ∧ others ≠ [] ∧ ∀ c ∈ others, c.isDigit = true := by
  obtain ⟨c, rest, hchars, -, -, hrest⟩ := exists_digitChars_eq hdigits
  unfold otherDigits
  rw [hchars]
  cases rest with
  | nil => exact ⟨['0'], rfl, by simp, by decide⟩
  | cons c rest => exact ⟨c :: rest, rfl, by simp, hrest⟩

theorem writeExponent_mem (hpoint : l.digitPoint = true) (hmark : l.mark = 'E') (hdigits : d.digits ≠ 0)
    (hleading : d.leading ≠ 0) : minus negative ++ l.writeExponent d ∈ exponentForm := by
  obtain ⟨c, rest, hchars, hzero, hc, -⟩ := exists_digitChars_eq hdigits
  obtain ⟨others, hothers, hne, hothersDigits⟩ := exists_otherDigits hdigits
  have hexponent : Nat.toDigits 10 d.leading.natAbs ∈ Numeral.positive :=
    Numeral.mem_positive Nat.toDigits_ne_nil Numeral.isDigit_toDigits
      (Numeral.head?_toDigits_ne (Int.natAbs_pos.2 hleading))
  have hsign : (if d.leading < 0 then ['-'] else ['+']) ∈ oneOf [('+', '+'), ('-', '-')] := by
    refine (mem_oneOf_singletons ['+', '-']).2 ?_
    by_cases h : d.leading < 0 <;> simp [h]
  have hE : ['E'] ∈ oneOf [('E', 'E')] := (mem_oneOf_singletons ['E']).2 ⟨'E', by simp, rfl⟩
  rw [writeExponent_eq, hpoint, hmark, hothers, hchars]
  have hmantissa := Language.append_mem_mul (Language.append_mem_mul (Numeral.mem_positiveDigit hc hzero)
    (Numeral.mem_point_iff.2 rfl)) (Numeral.mem_nonemptyDigits_iff.2 ⟨hne, hothersDigits⟩)
  have hback := Language.append_mem_mul (Language.append_mem_mul hE hsign) hexponent
  have hfront := Language.append_mem_mul (Numeral.minus_mem_optionalMinus negative) hmantissa
  have hword := Language.append_mem_mul hfront hback
  simpa [fractionText, exponentForm, Numeral.signedExponent] using hword

theorem mem_plainForm (whole : List Char) (fraction : Option (List Char))
    (hwhole : whole = ['0'] ∨ whole ≠ [] ∧ (∀ c ∈ whole, c.isDigit = true) ∧ whole.head? ≠ some '0')
    (hfraction : ∀ places ∈ fraction, places ≠ [] ∧ (∀ c ∈ places, c.isDigit = true) ∧ places.getLast? ≠ some '0') :
    minus negative ++ (whole ++ fractionText fraction) ∈ plainForm := by
  have hfront : whole ∈ oneOf [('0', '0')] + Numeral.positive := by
    refine (Language.mem_add _ _ _).2 ?_
    rcases hwhole with rfl | ⟨hne, hdigits, hhead⟩
    · exact .inl ((mem_oneOf_singletons ['0']).2 ⟨'0', by simp, rfl⟩)
    · exact .inr (Numeral.mem_positive hne hdigits hhead)
  have hback : fractionText fraction ∈ 1 + Numeral.decimalPlaces := by
    refine (Language.mem_add _ _ _).2 ?_
    cases fraction with
    | none => exact .inl Language.nil_mem_one
    | some places =>
      obtain ⟨hne, hdigits, hlast⟩ := hfraction places rfl
      exact .inr (Numeral.mem_decimalPlaces hne hdigits hlast)
  rw [← List.append_assoc]
  exact Language.append_mem_mul (Language.append_mem_mul (Numeral.minus_mem_optionalMinus negative) hfront) hback

theorem getLast?_digitChars (hd : d.digits % 10 ≠ 0) : d.digitChars.getLast? ≠ some '0' := by
  have hne : ∀ n < 10, n ≠ 0 → Nat.digitChar n ≠ '0' := by decide
  rw [Decimal.digitChars, Nat.toDigits_eq_if (by decide)]
  split
  · rename_i hlt
    rw [Nat.mod_eq_of_lt hlt] at hd
    simpa using hne _ hlt hd
  · simpa using hne _ (Nat.mod_lt _ (by decide)) hd

theorem writePositional_mem (hpoint : l.wholePoint = false) (hd : d = ⟨0, 0⟩ ∨ d.digits % 10 ≠ 0) :
    minus negative ++ l.writePositional d ∈ plainForm := by
  rcases hd with rfl | hd
  · have hzero : l.writePositional ⟨0, 0⟩ = ['0'] ++ fractionText none := by
      simp [writePositional, hpoint, Decimal.digitChars, fractionText]
    rw [hzero]
    exact mem_plainForm _ none (.inl rfl) (by simp)
  have hdigits : d.digits ≠ 0 := by omega
  have hhead := Numeral.head?_toDigits_ne (Nat.pos_of_ne_zero hdigits)
  have hall := Numeral.isDigit_toDigits (n := d.digits)
  have hne := Nat.toDigits_ne_nil (b := 10) (n := d.digits)
  have hlast := getLast?_digitChars hd
  unfold writePositional
  rw [Decimal.digitChars] at hlast ⊢
  generalize Nat.toDigits 10 d.digits = digits at hhead hall hne hlast ⊢
  dsimp only
  split
  · rw [hpoint]
    refine mem_plainForm _ none (.inr ⟨by simp [hne], ?_, ?_⟩) (by simp)
    · exact List.forall_mem_append.2 ⟨hall, Numeral.isDigit_zeros⟩
    · rwa [List.head?_append_of_ne_nil _ hne]
  · split
    · rename_i hexponent hplaces
      refine mem_plainForm _ (some _) (.inr ⟨?_, fun c hc => hall c (List.mem_of_mem_take hc), ?_⟩) ?_
      · rw [Ne, List.take_eq_nil_iff]
        exact not_or.2 ⟨by omega, hne⟩
      · rw [List.head?_take, if_neg (by omega)]
        exact hhead
      · rintro _ ⟨⟩
        refine ⟨?_, fun c hc => hall c (List.mem_of_mem_drop hc), ?_⟩
        · rw [Ne, List.drop_eq_nil_iff]
          omega
        · rw [List.getLast?_drop, if_neg (by omega)]
          exact hlast
    · let places := List.replicate ((-d.exponent).toNat - digits.length) '0' ++ digits
      refine mem_plainForm ['0'] (some places) (.inl rfl) ?_
      rintro _ ⟨⟩
      refine ⟨by simp [places, hne], List.forall_mem_append.2 ⟨Numeral.isDigit_zeros, hall⟩, ?_⟩
      rwa [List.getLast?_append_of_ne_nil _ hne]

end Layout

end StubTemplate
