/-
What a numeral is, and how a text that is one is taken apart.

A numeral is a word of `[+-]?([0-9]+(\.[0-9]*)?|\.[0-9]+)([eE][+-]?[0-9]+)?`, here `Numeral.language`. `Spells n t` names its
parts as well: the text `t` is the sign, the digits, the point and the exponent of `n`, one after the other.

Main results: `read?_eq_some_iff`, the parts that are read are those that the text is put together from, and
`mem_language_iff`, the texts that have such parts are the words of the language.
-/
import StubTemplate.Proofs.Languages
import StubTemplate.Proofs.Literals
import StubTemplate.Proofs.Sequences

namespace StubTemplate.Numeral

open scoped Computability

/-! ## The parts of a numeral -/

/-- the ways to write a sign -/
def signs (negative : Bool) : List (List Char) := if negative then [['-']] else [[], ['+']]

/-- a point and the digits after it -/
def fractionText : Option (List Char) → List Char
  | none => []
  | some digits => '.' :: digits

/-- whether a text is an exponent with this sign and these digits -/
def SpellsExponent : Option (Bool × List Char) → List Char → Prop
  | none, t => t = []
  | some (negative, digits), t =>
    digits ≠ [] ∧ (∀ c ∈ digits, c.isDigit = true) ∧
      ∃ mark ∈ ['e', 'E'], ∃ sign ∈ signs negative, t = mark :: (sign ++ digits)

/-- whether a text is put together from the parts of a numeral -/
structure Spells (n : Numeral) (t : List Char) : Prop where
  nonempty : n.digits ≠ []
  isDigit : ∀ c ∈ n.digits, c.isDigit = true
  text : ∃ sign ∈ signs n.negative, ∃ exponent, SpellsExponent n.exponent exponent ∧
    t = sign ++ (n.whole ++ (fractionText n.fraction ++ exponent))

theorem eq_of_mem_signs {negative : Bool} {sign : List Char} (h : sign ∈ signs negative) :
    sign = [] ∨ sign = ['+'] ∨ sign = ['-'] := by
  cases negative with
  | true => exact .inr (.inr (List.mem_singleton.1 h))
  | false => simpa [signs, or_assoc] using Or.inl h

theorem point_notMem_sign {negative : Bool} {sign : List Char} (h : sign ∈ signs negative) : '.' ∉ sign := by
  rcases eq_of_mem_signs h with rfl | rfl | rfl <;> decide

theorem point_notMem_digits {digits : List Char} (h : ∀ c ∈ digits, c.isDigit = true) : '.' ∉ digits := by
  intro hpoint
  exact absurd (h '.' hpoint) (by decide)

theorem eq_of_readSign (s : List Char) : ∃ sign ∈ signs (readSign s).1, s = sign ++ (readSign s).2 := by
  unfold readSign
  split
  · exact ⟨['+'], by simp [signs], rfl⟩
  · exact ⟨['-'], by simp [signs], rfl⟩
  · exact ⟨[], by simp [signs], rfl⟩

/-- a sign is read off whatever does not start with one itself -/
theorem readSign_append {negative : Bool} {sign rest : List Char} (hsign : sign ∈ signs negative)
    (hrest : ∀ c ∈ rest.head?, c ≠ '+' ∧ c ≠ '-') : readSign (sign ++ rest) = (negative, rest) := by
  cases negative with
  | true =>
    obtain rfl : sign = ['-'] := by simpa [signs] using hsign
    rfl
  | false =>
    obtain rfl | rfl : sign = [] ∨ sign = ['+'] := by simpa [signs] using hsign
    · rw [List.nil_append]
      unfold readSign
      split
      · exact absurd rfl (hrest '+' rfl).1
      · exact absurd rfl (hrest '-' rfl).2
      · rfl
    · rfl

theorem ne_sign_of_isDigit {c : Char} (h : c.isDigit = true) : c ≠ '+' ∧ c ≠ '-' :=
  ⟨ne_of_isDigit h (by decide), ne_of_isDigit h (by decide)⟩

theorem readExponent_eq_some_iff {exponent : Option (Bool × List Char)} {t : List Char} :
    readExponent t = some exponent ↔ SpellsExponent exponent t := by
  constructor
  · intro h
    cases t with
    | nil =>
      rw [readExponent, Option.some.injEq] at h
      rw [← h]
      rfl
    | cons mark rest =>
      obtain ⟨sign, hsign, hrest⟩ := eq_of_readSign rest
      simp only [readExponent, Option.ite_none_right_eq_some, Option.some.injEq, List.all_eq_true] at h
      obtain ⟨⟨hmark, hne, hdigits⟩, hexponent⟩ := h
      rw [← hexponent]
      exact ⟨hne, hdigits, mark, by simpa using hmark, sign, hsign, by rw [← hrest]⟩
  · intro h
    cases exponent with
    | none =>
      rw [h]
      rfl
    | some exponent =>
      obtain ⟨hne, hdigits, mark, hmark, sign, hsign, rfl⟩ := h
      have hhead : ∀ c ∈ exponent.2.head?, c ≠ '+' ∧ c ≠ '-' := fun c hc =>
        ne_sign_of_isDigit (hdigits c (List.mem_of_mem_head? hc))
      rw [readExponent, readSign_append hsign hhead]
      exact if_pos ⟨by simpa using hmark, hne, List.all_eq_true.2 hdigits⟩

theorem readFraction_spec (s : List Char) :
    s = fractionText (readFraction s).1 ++ (readFraction s).2 ∧
      ∀ c ∈ (readFraction s).1.getD [], c.isDigit = true := by
  unfold readFraction
  split
  · refine ⟨?_, fun c hc => List.mem_takeWhile_imp hc⟩
    simp [fractionText, List.takeWhile_append_dropWhile]
  · exact ⟨rfl, by simp⟩

/-- an exponent starts with its mark -/
theorem SpellsExponent.head? {exponent : Option (Bool × List Char)} {t : List Char} (h : SpellsExponent exponent t) :
    ∀ c ∈ t.head?, c = 'e' ∨ c = 'E' := by
  cases exponent with
  | none =>
    rw [h]
    simp
  | some exponent =>
    obtain ⟨-, -, mark, hmark, sign, -, rfl⟩ := h
    simpa using hmark

theorem SpellsExponent.point_notMem {exponent : Option (Bool × List Char)} {t : List Char}
    (h : SpellsExponent exponent t) : '.' ∉ t := by
  cases exponent with
  | none =>
    rw [h]
    exact List.not_mem_nil
  | some exponent =>
    obtain ⟨-, hdigits, mark, hmark, sign, hsign, rfl⟩ := h
    have hne : '.' ≠ mark := by
      intro he
      rw [← he] at hmark
      exact absurd hmark (by decide)
    simp [hne, point_notMem_sign hsign, point_notMem_digits hdigits]

theorem head?_fraction {fraction : Option (List Char)} {exponent : Option (Bool × List Char)} {t : List Char}
    (h : SpellsExponent exponent t) : ∀ c ∈ (fractionText fraction ++ t).head?, c = '.' ∨ c = 'e' ∨ c = 'E' := by
  cases fraction with
  | none =>
    intro c hc
    exact .inr (h.head? c hc)
  | some digits =>
    intro c hc
    exact .inl (Option.some.inj hc).symm

theorem readFraction_append {fraction : Option (List Char)} {exponent : Option (Bool × List Char)} {t : List Char}
    (hdigits : ∀ c ∈ fraction.getD [], c.isDigit = true) (h : SpellsExponent exponent t) :
    readFraction (fractionText fraction ++ t) = (fraction, t) := by
  cases fraction with
  | none =>
    unfold readFraction
    split
    · rename_i he
      rw [fractionText, List.nil_append] at he
      have hmark := h.head? '.' (by rw [he]; rfl)
      exact absurd hmark (by decide)
    · rfl
  | some digits =>
    have hend : ∀ c ∈ t.head?, c.isDigit = false := by
      intro c hc
      rcases h.head? c hc with rfl | rfl <;> decide
    obtain ⟨htake, hdrop⟩ := span_append hdigits hend
    rw [Option.getD_some] at htake hdrop
    rw [fractionText, List.cons_append, readFraction, htake, hdrop]

namespace Spells

variable {n : Numeral} {t : List Char}

/-- after its sign a numeral starts with a digit or the point -/
theorem exists_cons_body (h : Spells n t) (exponent : List Char) :
    ∃ c rest, n.whole ++ (fractionText n.fraction ++ exponent) = c :: rest ∧ (c.isDigit = true ∨ c = '.') := by
  obtain ⟨negative, whole, fraction, _⟩ := n
  cases whole with
  | cons first whole => exact ⟨first, _, rfl, .inl (h.isDigit first List.mem_cons_self)⟩
  | nil =>
    cases fraction with
    | none => exact absurd rfl h.nonempty
    | some digits => exact ⟨'.', _, rfl, .inr rfl⟩

/-- what stands behind the sign of a numeral -/
theorem readSign_eq (h : Spells n t) : ∃ exponent, SpellsExponent n.exponent exponent ∧
    readSign t = (n.negative, n.whole ++ (fractionText n.fraction ++ exponent)) := by
  obtain ⟨sign, hsign, exponent, hexponent, rfl⟩ := h.text
  refine ⟨exponent, hexponent, readSign_append hsign ?_⟩
  obtain ⟨first, rest, hrest, hfirst⟩ := h.exists_cons_body exponent
  rw [hrest]
  intro c hc
  rw [← Option.some.inj hc]
  rcases hfirst with hdigit | rfl
  · exact ne_sign_of_isDigit hdigit
  · decide

theorem read?_eq (h : Spells n t) : read? t = some n := by
  obtain ⟨exponent, hexponent, hbody⟩ := h.readSign_eq
  have hwhole : ∀ c ∈ n.whole, c.isDigit = true := fun c hc => h.isDigit c (List.mem_append_left _ hc)
  have hfraction : ∀ c ∈ n.fraction.getD [], c.isDigit = true := fun c hc => h.isDigit c (List.mem_append_right _ hc)
  have hend : ∀ c ∈ (fractionText n.fraction ++ exponent).head?, c.isDigit = false := by
    intro c hc
    rcases head?_fraction hexponent c hc with rfl | rfl | rfl <;> decide
  obtain ⟨htake, hdrop⟩ := span_append hwhole hend
  -- each part ends where the next one starts, with a character that the part cannot have
  have hne : ¬ (n.whole = [] ∧ n.fraction.getD [] = []) := fun hnil => h.nonempty (List.append_eq_nil_iff.2 hnil)
  simp only [read?, hbody, htake, hdrop, readFraction_append hfraction hexponent]
  rw [if_neg hne, readExponent_eq_some_iff.2 hexponent]
  rfl

/-- a numeral starts with no letter -/
theorem exists_cons (h : Spells n t) : ∃ c rest, t = c :: rest ∧ c.isAlpha = false := by
  obtain ⟨sign, hsign, exponent, -, rfl⟩ := h.text
  rcases eq_of_mem_signs hsign with rfl | rfl | rfl
  · obtain ⟨first, rest, hrest, hfirst⟩ := h.exists_cons_body exponent
    refine ⟨first, rest, hrest, ?_⟩
    rcases hfirst with hdigit | rfl
    · exact isAlpha_of_isDigit hdigit
    · decide
  · exact ⟨'+', _, rfl, by decide⟩
  · exact ⟨'-', _, rfl, by decide⟩

/-- there is a point in a numeral exactly if it has a fraction -/
theorem point_mem_iff (h : Spells n t) : '.' ∈ t ↔ n.fraction.isSome = true := by
  obtain ⟨sign, hsign, exponent, hexponent, rfl⟩ := h.text
  have hwhole : '.' ∉ n.whole := point_notMem_digits fun c hc => h.isDigit c (List.mem_append_left _ hc)
  simp only [List.mem_append, point_notMem_sign hsign, hwhole, hexponent.point_notMem, false_or, or_false]
  cases n.fraction with
  | none => simp [fractionText]
  | some digits => simp [fractionText]

end Spells

theorem spells_of_read? {n : Numeral} {t : List Char} (h : read? t = some n) : Spells n t := by
  obtain ⟨sign, hsign, hbody⟩ := eq_of_readSign t
  unfold read? at h
  rcases hread : readSign t with ⟨negative, body⟩
  rw [hread] at h hsign hbody
  obtain ⟨hrest, hfraction⟩ := readFraction_spec (body.dropWhile Char.isDigit)
  rcases hreadFraction : readFraction (body.dropWhile Char.isDigit) with ⟨fraction, rest⟩
  rw [hreadFraction] at hrest hfraction
  simp only [hreadFraction, Option.ite_none_left_eq_some, Option.map_eq_some_iff] at h
  obtain ⟨hne, exponent, hexponent, rfl⟩ := h
  refine ⟨fun hnil => hne (List.append_eq_nil_iff.1 hnil), ?_, sign, hsign, rest,
    readExponent_eq_some_iff.1 hexponent, ?_⟩
  · intro c hc
    rcases List.mem_append.1 hc with hc | hc
    · exact List.mem_takeWhile_imp hc
    · exact hfraction c hc
  · dsimp only at hrest ⊢
    rw [← hrest, List.takeWhile_append_dropWhile]
    exact hbody

/-- what is read is what the text is put together from -/
theorem read?_eq_some_iff {n : Numeral} {t : List Char} : read? t = some n ↔ Spells n t :=
  ⟨spells_of_read?, Spells.read?_eq⟩

/-- a text is put together from the parts of one numeral at most -/
theorem Spells.unique {m n : Numeral} {t : List Char} (hm : Spells m t) (hn : Spells n t) : m = n :=
  Option.some.inj (hm.read?_eq.symm.trans hn.read?_eq)

/-- a sign and digits are all that is written of an integer without an exponent -/
theorem spells_digits_iff {negative : Bool} {digits t : List Char} :
    Spells ⟨negative, digits, none, none⟩ t ↔
      digits ≠ [] ∧ (∀ c ∈ digits, c.isDigit = true) ∧ ∃ sign ∈ signs negative, t = sign ++ digits := by
  have hdigits : Numeral.digits ⟨negative, digits, none, none⟩ = digits := List.append_nil digits
  constructor
  · rintro ⟨hne, hall, sign, hsign, _, rfl, ht⟩
    rw [hdigits] at hne hall
    exact ⟨hne, hall, sign, hsign, by simpa [fractionText] using ht⟩
  · rintro ⟨hne, hall, sign, hsign, ht⟩
    exact ⟨by rwa [hdigits], by rwa [hdigits], sign, hsign, [], rfl, by simpa [fractionText] using ht⟩

/-! ## The language of numerals -/

/-- `[0-9]` -/
def digit : Language Char := oneOf [('0', '9')]

/-- `[+-]?` -/
def optionalSign : Language Char := 1 + oneOf [('+', '+'), ('-', '-')]

/-- `[0-9]+(\.[0-9]*)?|\.[0-9]+` -/
def mantissa : Language Char :=
  digit * digit∗ * (1 + oneOf [('.', '.')] * digit∗) + oneOf [('.', '.')] * (digit * digit∗)

/-- `([eE][+-]?[0-9]+)?` -/
def optionalExponent : Language Char := 1 + oneOf [('e', 'e'), ('E', 'E')] * optionalSign * (digit * digit∗)

/-- the numerals: `[+-]?([0-9]+(\.[0-9]*)?|\.[0-9]+)([eE][+-]?[0-9]+)?` -/
def language : Language Char := optionalSign * mantissa * optionalExponent

theorem isDigit_iff_inRanges {c : Char} : c.isDigit = true ↔ InRanges [('0', '9')] c := by
  simp [Text.isDigit_iff, le_iff_toNat_le]

theorem mem_digits_iff {s : List Char} : s ∈ digit∗ ↔ ∀ c ∈ s, c.isDigit = true := by
  simp only [digit, mem_kstar_oneOf, isDigit_iff_inRanges]

theorem mem_nonemptyDigits_iff {s : List Char} : s ∈ digit * digit∗ ↔ s ≠ [] ∧ ∀ c ∈ s, c.isDigit = true := by
  constructor
  · intro h
    obtain ⟨_, ⟨c, rfl, hc⟩, rest, hrest, rfl⟩ := Language.mem_mul.1 h
    refine ⟨by simp, List.forall_mem_cons.2 ⟨isDigit_iff_inRanges.2 hc, mem_digits_iff.1 hrest⟩⟩
  · rintro ⟨hne, hdigits⟩
    obtain ⟨c, rest, rfl⟩ := List.exists_cons_of_ne_nil hne
    obtain ⟨hc, hrest⟩ := List.forall_mem_cons.1 hdigits
    exact Language.mem_mul.2 ⟨[c], ⟨c, rfl, isDigit_iff_inRanges.1 hc⟩, rest, mem_digits_iff.2 hrest, rfl⟩

theorem mem_optionalSign_iff {s : List Char} : s ∈ optionalSign ↔ ∃ negative, s ∈ signs negative := by
  have hsign : s ∈ oneOf [('+', '+'), ('-', '-')] ↔ s = ['+'] ∨ s = ['-'] := by
    simpa using mem_oneOf_singletons ['+', '-']
  rw [optionalSign, Language.mem_add, Language.mem_one, hsign, Bool.exists_bool]
  simp [signs, or_assoc]

theorem mem_point_iff {s : List Char} : s ∈ oneOf [('.', '.')] ↔ s = ['.'] := by
  simpa using mem_oneOf_singletons ['.']

theorem mem_mantissa_iff {s : List Char} :
    s ∈ mantissa ↔ ∃ whole fraction, whole ++ fraction.getD [] ≠ [] ∧
      (∀ c ∈ whole ++ fraction.getD [], c.isDigit = true) ∧ s = whole ++ fractionText fraction := by
  constructor
  · intro h
    rcases (Language.mem_add _ _ _).1 h with h | h
    · obtain ⟨whole, hwhole, rest, hrest, rfl⟩ := Language.mem_mul.1 h
      obtain ⟨hne, hdigits⟩ := mem_nonemptyDigits_iff.1 hwhole
      rcases (Language.mem_add _ _ _).1 hrest with hrest | hrest
      · rw [(Language.mem_one _).1 hrest]
        exact ⟨whole, none, by simpa using hne, by simpa using hdigits, rfl⟩
      · obtain ⟨point, hpoint, fraction, hfraction, rfl⟩ := Language.mem_mul.1 hrest
        rw [mem_point_iff.1 hpoint]
        refine ⟨whole, some fraction, by simp [hne], ?_, rfl⟩
        intro c hc
        exact (List.mem_append.1 hc).elim (hdigits c) (mem_digits_iff.1 hfraction c)
    · obtain ⟨point, hpoint, fraction, hfraction, rfl⟩ := Language.mem_mul.1 h
      obtain ⟨hne, hdigits⟩ := mem_nonemptyDigits_iff.1 hfraction
      rw [mem_point_iff.1 hpoint]
      exact ⟨[], some fraction, hne, hdigits, rfl⟩
  · rintro ⟨whole, fraction, hne, hdigits, rfl⟩
    have hwhole : ∀ c ∈ whole, c.isDigit = true := fun c hc => hdigits c (List.mem_append_left _ hc)
    have hfraction : ∀ c ∈ fraction.getD [], c.isDigit = true := fun c hc => hdigits c (List.mem_append_right _ hc)
    refine (Language.mem_add _ _ _).2 ?_
    cases fraction with
    | none =>
      rw [Option.getD_none, List.append_nil] at hne
      exact .inl (Language.mem_mul.2 ⟨whole, mem_nonemptyDigits_iff.2 ⟨hne, hwhole⟩, [],
        (Language.mem_add _ _ _).2 (.inl Language.nil_mem_one), rfl⟩)
    | some fraction =>
      -- `[0-9]+\.[0-9]*` and `\.[0-9]+` differ in whether there are digits before the point
      by_cases hempty : whole = []
      · rw [hempty] at hne ⊢
        exact .inr (Language.mem_mul.2 ⟨['.'], mem_point_iff.2 rfl, fraction,
          mem_nonemptyDigits_iff.2 ⟨hne, hfraction⟩, rfl⟩)
      · have hpoint : '.' :: fraction ∈ oneOf [('.', '.')] * digit∗ :=
          Language.mem_mul.2 ⟨['.'], mem_point_iff.2 rfl, fraction, mem_digits_iff.2 hfraction, rfl⟩
        exact .inl (Language.mem_mul.2 ⟨whole, mem_nonemptyDigits_iff.2 ⟨hempty, hwhole⟩, '.' :: fraction,
          (Language.mem_add _ _ _).2 (.inr hpoint), rfl⟩)

theorem mem_optionalExponent_iff {s : List Char} : s ∈ optionalExponent ↔ ∃ exponent, SpellsExponent exponent s := by
  have hmark : ∀ {t : List Char}, t ∈ oneOf [('e', 'e'), ('E', 'E')] ↔ ∃ mark ∈ ['e', 'E'], t = [mark] :=
    mem_oneOf_singletons ['e', 'E']
  constructor
  · intro h
    rcases (Language.mem_add _ _ _).1 h with h | h
    · exact ⟨none, (Language.mem_one _).1 h⟩
    · obtain ⟨front, hfront, digits, hdigits, rfl⟩ := Language.mem_mul.1 h
      obtain ⟨text, htext, sign, hsign, rfl⟩ := Language.mem_mul.1 hfront
      obtain ⟨mark, hmarks, rfl⟩ := hmark.1 htext
      obtain ⟨negative, hsign⟩ := mem_optionalSign_iff.1 hsign
      obtain ⟨hne, hdigits⟩ := mem_nonemptyDigits_iff.1 hdigits
      exact ⟨some (negative, digits), hne, hdigits, mark, hmarks, sign, hsign, rfl⟩
  · rintro ⟨exponent, h⟩
    refine (Language.mem_add _ _ _).2 ?_
    cases exponent with
    | none => exact .inl ((Language.mem_one _).2 h)
    | some exponent =>
      obtain ⟨hne, hdigits, mark, hmarks, sign, hsign, rfl⟩ := h
      have hfront : mark :: sign ∈ oneOf [('e', 'e'), ('E', 'E')] * optionalSign :=
        Language.mem_mul.2 ⟨[mark], hmark.2 ⟨mark, hmarks, rfl⟩, sign, mem_optionalSign_iff.2 ⟨_, hsign⟩, rfl⟩
      exact .inr (Language.mem_mul.2 ⟨mark :: sign, hfront, exponent.2, mem_nonemptyDigits_iff.2 ⟨hne, hdigits⟩, rfl⟩)

/-- the words of the language are the texts put together from the parts of a numeral -/
theorem mem_language_iff {t : List Char} : t ∈ language ↔ ∃ n, Spells n t := by
  constructor
  · intro h
    obtain ⟨front, hfront, exponentText, hexponent, rfl⟩ := Language.mem_mul.1 h
    obtain ⟨sign, hsign, middle, hmiddle, rfl⟩ := Language.mem_mul.1 hfront
    obtain ⟨negative, hsign⟩ := mem_optionalSign_iff.1 hsign
    obtain ⟨whole, fraction, hne, hdigits, rfl⟩ := mem_mantissa_iff.1 hmiddle
    obtain ⟨exponent, hexponent⟩ := mem_optionalExponent_iff.1 hexponent
    exact ⟨⟨negative, whole, fraction, exponent⟩, hne, hdigits, sign, hsign, exponentText, hexponent, by simp⟩
  · rintro ⟨n, hne, hdigits, sign, hsign, exponentText, hexponent, rfl⟩
    have hmantissa : n.whole ++ fractionText n.fraction ∈ mantissa :=
      mem_mantissa_iff.2 ⟨n.whole, n.fraction, hne, hdigits, rfl⟩
    have hfront : sign ++ (n.whole ++ fractionText n.fraction) ∈ optionalSign * mantissa :=
      Language.mem_mul.2 ⟨sign, mem_optionalSign_iff.2 ⟨_, hsign⟩, _, hmantissa, rfl⟩
    refine Language.mem_mul.2 ⟨_, hfront, exponentText, mem_optionalExponent_iff.2 ⟨_, hexponent⟩, ?_⟩
    simp

end StubTemplate.Numeral
