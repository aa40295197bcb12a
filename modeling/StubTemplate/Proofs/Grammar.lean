/-
The placeholders of a template against their grammar, byte by byte.

`WellFormed` is the grammar of one placeholder in characters, and `read?_eq_some_iff` says that reading a placeholder
and being one that is well formed are the same. `MatchesAt` is the grammar at a byte of a text; `matchesAt_iff` takes
it back to characters.

Main result: `located_grammar`. What is found matches, in order and without overlap, and every match is found unless
it starts at the closing `%` of one that is.
-/
import Mathlib.Data.List.TakeWhile
import StubTemplate.Proofs.Bytes
import StubTemplate.Template

namespace StubTemplate

/-! ## Two in a row -/

namespace Text

section

variable {α : Type} {x y z : α} {s t : List α}

theorem pair_prefix_cons : [x, y] <+: z :: s ↔ z = x ∧ s.head? = some y := by
  rw [List.cons_prefix_cons, eq_comm]
  cases s with
  | nil => simp
  | cons w s => simp [eq_comm]

theorem pair_infix_cons : [x, y] <:+: z :: s ↔ (z = x ∧ s.head? = some y) ∨ [x, y] <:+: s := by
  rw [List.infix_cons_iff, pair_prefix_cons]

theorem pair_infix_concat (h : [x, y] <:+: s ++ [z]) : y = z ∨ [x, y] <:+: s := by
  rw [List.infix_concat_iff, List.suffix_concat_iff] at h
  rcases h with (h | ⟨t, h, -⟩) | h
  · cases h
  · have hlast := congrArg List.getLast? h
    rw [List.getLast?_concat] at hlast
    exact .inl (Option.some.inj hlast)
  · exact .inr h

theorem pair_infix_append_cons (h : [x, y] <:+: s ++ z :: t) : [x, y] <:+: s ++ [z] ∨ [x, y] <:+: z :: t := by
  induction s with
  | nil => exact .inr h
  | cons w s ih =>
    rw [List.cons_append, pair_infix_cons] at h
    rw [List.cons_append, pair_infix_cons]
    rcases h with ⟨hw, hhead⟩ | h
    · refine .inl (.inl ⟨hw, ?_⟩)
      cases s with
      | nil => exact hhead
      | cons w' s => exact hhead
    · rcases ih h with h | h
      · exact .inl (.inr h)
      · exact .inr h

/-- a pair stands in a text where it stands at some place, whatever follows, as long as it does not begin with `y` -/
theorem exists_pair_prefix_drop (hz : y ≠ z) :
    (∃ i < s.length, [x, y] <+: s.drop i ++ z :: t) ↔ [x, y] <:+: s := by
  induction s with
  | nil => simp
  | cons w s ih =>
    have hhead : (s ++ z :: t).head? = some y ↔ s.head? = some y := by
      cases s with
      | nil => simp [hz.symm]
      | cons w' s => rfl
    rw [List.length_cons, Nat.exists_lt_succ_left, pair_infix_cons, ← ih, List.drop_zero, List.cons_append,
      pair_prefix_cons, hhead]
    rfl

end

/-- two ASCII bytes in a row in a text are two characters in a row -/
theorem pair_infix_utf8 {c d : Char} (hc : c.toNat < 128) (hd : d.toNat < 128) {s : List Char} :
    [c.toUInt8, d.toUInt8] <:+: utf8 s ↔ [c, d] <:+: s := by
  constructor
  · rintro ⟨x, y, h⟩
    rw [List.append_assoc] at h
    obtain ⟨s₁, s₂, hs, -, h₂⟩ := exists_of_utf8_cons hc h.symm
    obtain ⟨t₁, t₂, ht, h₁, -⟩ := exists_of_utf8_cons (x := []) hd h₂
    have hnil : t₁ = [] := utf8_eq_nil_iff.1 h₁
    exact ⟨s₁, t₂, by simp [hs, ht, hnil]⟩
  · rintro ⟨x, y, h⟩
    refine ⟨utf8 x, utf8 y, ?_⟩
    rw [← h, utf8_append, utf8_append, utf8_cons_ascii hc, utf8_cons_ascii hd]
    rfl

end Text

namespace Placeholder

open Text

/-! ## The grammar in characters -/

theorem isNameChar_of_isNameStart {c : Char} (h : isNameStart c = true) : isNameChar c = true := by
  simp only [isNameStart, Bool.or_eq_true] at h
  simp only [isNameChar, Char.isAlphanum, Bool.or_eq_true]
  rcases h with h | h
  · exact .inl (.inl h)
  · exact .inr h

/-- arguments of a placeholder: they hold neither a `)%` nor a `%` with the start of a name after it -/
structure IsArguments (a : List Char) : Prop where
  firstClose : ¬ [')', '%'] <:+: a
  noOpening : ∀ c, isNameStart c = true → ¬ ['%', c] <:+: a

theorem isArguments_nil : IsArguments [] := ⟨by simp, by simp⟩

theorem isArguments_cons {c : Char} {a : List Char} :
    IsArguments (c :: a) ↔ (c = ')' → a.head? ≠ some '%') ∧
      (∀ d, isNameStart d = true → c = '%' → a.head? ≠ some d) ∧ IsArguments a := by
  constructor
  · intro h
    have hclose := h.firstClose
    have hopen := h.noOpening
    simp only [pair_infix_cons, not_or, not_and] at hclose hopen
    refine ⟨hclose.1, ?_, hclose.2, ?_⟩
    · intro d hd
      exact (hopen d hd).1
    · intro d hd
      exact (hopen d hd).2
  · rintro ⟨hclose, hopen, h⟩
    constructor
    · rw [pair_infix_cons, not_or, not_and]
      exact ⟨hclose, h.firstClose⟩
    · intro d hd
      rw [pair_infix_cons, not_or, not_and]
      exact ⟨hopen d hd, h.noOpening d hd⟩

/-- the grammar of placeholders -/
structure WellFormed (p : Placeholder) : Prop where
  start : p.name.head?.any isNameStart = true
  chars : ∀ c ∈ p.name, isNameChar c = true
  arguments : IsArguments p.arguments

theorem readArguments_append {a : List Char} (ha : IsArguments a) (rest : List Char) :
    readArguments (a ++ ')' :: '%' :: rest) = some (a, rest) := by
  induction a with
  | nil => rfl
  | cons c a ih =>
    obtain ⟨hclose, hopen, ha⟩ := isArguments_cons.1 ha
    have hfirst : ∀ after, c = ')' → a ++ ')' :: '%' :: rest ≠ '%' :: after := by
      intro after hc h
      cases a with
      | nil => simp at h
      | cons d a => exact hclose hc (congrArg some (List.cons.inj h).1)
    have hgo : ¬ (c = '%' ∧ (a ++ ')' :: '%' :: rest).head?.any isNameStart = true) := by
      intro ⟨hc, hd⟩
      cases a with
      | nil => simp [isNameStart] at hd
      | cons d a => exact hopen d hd hc rfl
    rw [List.cons_append, readArguments, if_neg hgo, ih ha]
    · rfl
    · exact hfirst

theorem isArguments_of_readArguments {s : List Char} {read : List Char × List Char}
    (h : readArguments s = some read) : IsArguments read.1 := by
  induction s using readArguments.induct generalizing read with
  | case1 => simp [readArguments] at h
  | case2 rest =>
    simp only [readArguments, Option.some.injEq] at h
    subst h
    exact isArguments_nil
  | case3 c rest hnot hstop =>
    rw [readArguments] at h
    · simp [hstop] at h
    · exact hnot
  | case4 c rest hnot hgo ih =>
    rw [readArguments, if_neg hgo] at h
    · obtain ⟨inner, hinner, rfl⟩ := Option.map_eq_some_iff.1 h
      have hrest := eq_append_of_readArguments hinner
      have hhead : ∀ {d}, inner.1.head? = some d → rest.head? = some d := by
        intro d hd
        rw [hrest, List.head?_append, hd]
        rfl
      refine isArguments_cons.2 ⟨?_, ?_, ih hinner⟩
      · intro hc hd
        obtain ⟨after, hafter⟩ := List.head?_eq_some_iff.1 (hhead hd)
        exact hnot after hc hafter
      · intro d hd hc hhd
        apply hgo
        refine ⟨hc, ?_⟩
        rw [hhead hhd]
        exact hd
    · exact hnot

theorem wellFormed_of_read? {s : List Char} {read : Placeholder × List Char} (h : read? s = some read) :
    read.1.WellFormed := by
  unfold read? at h
  split at h
  · rename_i body
    split at h
    · rename_i hstart
      split at h
      · obtain ⟨inner, hinner, rfl⟩ := Option.map_eq_some_iff.1 h
        refine ⟨?_, ?_, isArguments_of_readArguments hinner⟩
        · cases body with
          | nil => simp at hstart
          | cons c body =>
            have hc : isNameStart c = true := by simpa using hstart
            simp [isNameChar_of_isNameStart hc, hc]
        · intro c hc
          exact List.mem_takeWhile_imp hc
      · cases h
    · cases h
  · cases h

/-- reading a placeholder and being one that is well formed are the same -/
theorem read?_eq_some_iff {s : List Char} {p : Placeholder} {rest : List Char} :
    read? s = some (p, rest) ↔ p.WellFormed ∧ s = p.text ++ rest := by
  constructor
  · intro h
    exact ⟨wellFormed_of_read? h, eq_text_append_of_read? h⟩
  · rintro ⟨h, rfl⟩
    obtain ⟨name, arguments⟩ := p
    have hparen : isNameChar '(' = false := by decide
    have hbody : (⟨name, arguments⟩ : Placeholder).text ++ rest
        = '%' :: (name ++ '(' :: (arguments ++ ')' :: '%' :: rest)) := by simp [text]
    have hstart : (name ++ '(' :: (arguments ++ ')' :: '%' :: rest)).head?.any isNameStart = true := by
      have := h.start
      cases name with
      | nil => simp at this
      | cons c name => simpa using this
    rw [hbody, read?, if_pos hstart, List.dropWhile_append_of_pos h.chars, List.takeWhile_append_of_pos h.chars]
    simp [hparen, readArguments_append h.arguments]

/-- a `%` inside a placeholder, its first character apart, does not open another one -/
theorem WellFormed.inner_percent {p : Placeholder} (h : p.WellFormed) {c : Char} (hc : isNameStart c = true) :
    ¬ ['%', c] <:+: p.text.tail := by
  intro hinfix
  have htail : p.text.tail = p.name ++ '(' :: (p.arguments ++ ')' :: ['%']) := by simp [text]
  rw [htail] at hinfix
  rcases pair_infix_append_cons hinfix with hname | hrest
  · -- no character of the name is a `%`
    have hmem : '%' ∈ p.name ++ ['('] := hname.subset List.mem_cons_self
    rcases List.mem_append.1 hmem with hmem | hmem
    · exact absurd (h.chars _ hmem) (by decide)
    · simp at hmem
  · rw [pair_infix_cons] at hrest
    rcases hrest with ⟨hparen, -⟩ | hrest
    · simp at hparen
    · rcases pair_infix_append_cons hrest with harguments | hclose
      · rcases pair_infix_concat harguments with rfl | harguments
        · exact absurd hc (by decide)
        · exact h.arguments.noOpening c hc harguments
      · simp [pair_infix_cons] at hclose

theorem text_eq_concat (p : Placeholder) : p.text = '%' :: p.name ++ '(' :: p.arguments ++ [')'] ++ ['%'] := by
  simp [text]

theorem text_ne_nil (p : Placeholder) : p.text ≠ [] := List.cons_ne_nil _ _

/-- where the texts of two placeholders both stand at the start, they are one -/
theorem WellFormed.eq_of_append_eq {p q : Placeholder} (hp : p.WellFormed) (hq : q.WellFormed) {s t : List Char}
    (h : p.text ++ s = q.text ++ t) : p = q ∧ s = t := by
  have hread : read? (p.text ++ s) = some (p, s) := read?_eq_some_iff.2 ⟨hp, rfl⟩
  rw [read?_eq_some_iff.2 ⟨hq, h⟩] at hread
  cases hread
  exact ⟨rfl, rfl⟩

theorem WellFormed.exists_text_eq {p : Placeholder} (h : p.WellFormed) :
    ∃ c rest, isNameStart c = true ∧ p.text = '%' :: c :: rest := by
  obtain ⟨name, arguments⟩ := p
  cases name with
  | nil => exact absurd h.start (by simp)
  | cons c name => exact ⟨c, _, by simpa using h.start, rfl⟩

/-- a placeholder that starts inside another one or right after it starts at its end, or at its closing `%` -/
theorem WellFormed.overlap {p q : Placeholder} (hp : p.WellFormed) (hq : q.WellFormed) {x z s t : List Char}
    (hx : p.text = x ++ z) (hz : q.text ++ s = z ++ t) : x = [] ∨ z = [] ∨ z = ['%'] := by
  obtain ⟨c, rest, hc, hqtext⟩ := hq.exists_text_eq
  cases x with
  | nil => exact .inl rfl
  | cons d x =>
    rw [hqtext] at hz
    match z with
    | [] => exact .inr (.inl rfl)
    | [e] =>
      obtain ⟨rfl, -⟩ := List.cons.inj hz
      exact .inr (.inr rfl)
    | e :: e' :: z =>
      obtain ⟨he, hrest⟩ := List.cons.inj hz
      obtain ⟨he', -⟩ := List.cons.inj hrest
      refine absurd ?_ (hp.inner_percent hc)
      rw [hx, ← he, ← he']
      exact ⟨x, z, by simp⟩

/-! ## The grammar in bytes -/

/-- a letter of ASCII or an underscore -/
def isNameStartByte (b : UInt8) : Bool := (0x61 ≤ b && b ≤ 0x7a) || (0x41 ≤ b && b ≤ 0x5a) || b == 0x5f

/-- a letter or digit of ASCII or an underscore -/
def isNameByte (b : UInt8) : Bool := isNameStartByte b || (0x30 ≤ b && b ≤ 0x39)

/-- where the arguments of a placeholder start that itself starts at byte `p` -/
def argumentsStart (p : Nat) (name : List UInt8) : Nat := p + 1 + name.length + 1

/--
The grammar matches at byte `p` of a text: from there the text has a `%`, a name, `(`, arguments and `)%`. This `)%`
is the first one from the start of the arguments on, and no `%` of the arguments has the start of a name after it.
-/
structure MatchesAt (bytes : List UInt8) (p : Nat) (name arguments : List UInt8) : Prop where
  shape : '%'.toUInt8 :: name ++ '('.toUInt8 :: arguments ++ [')'.toUInt8, '%'.toUInt8] <+: bytes.drop p
  start : name.head?.any isNameStartByte = true
  chars : ∀ b ∈ name, isNameByte b = true
  firstClose : ∀ i < arguments.length,
    ¬ [')'.toUInt8, '%'.toUInt8] <+: bytes.drop (argumentsStart p name + i)
  noOpening : ∀ i < arguments.length, ∀ b, isNameStartByte b = true →
    ¬ ['%'.toUInt8, b] <+: bytes.drop (argumentsStart p name + i)

theorem toNat_lt_of_isNameChar {c : Char} (h : isNameChar c = true) : c.toNat < 128 := by
  simp only [isNameChar, Char.isAlphanum, Bool.or_eq_true, isAlpha_iff, isDigit_iff, beq_iff_eq] at h
  rcases h with h | rfl
  · omega
  · decide

theorem isNameStartByte_toUInt8 {c : Char} (hc : c.toNat < 128) : isNameStartByte c.toUInt8 = isNameStart c :=
  forall_ascii (P := fun b c => isNameStartByte b = isNameStart c) (by decide +kernel) hc

theorem isNameByte_toUInt8 {c : Char} (hc : c.toNat < 128) : isNameByte c.toUInt8 = isNameChar c :=
  forall_ascii (P := fun b c => isNameByte b = isNameChar c) (by decide +kernel) hc

theorem toNat_lt_of_isNameByte {b : UInt8} (h : isNameByte b = true) : b.toNat < 128 :=
  forall_byte (P := fun b => isNameByte b = true → b.toNat < 128) (by decide +kernel) b h

theorem isNameByte_of_isNameStartByte {b : UInt8} (h : isNameStartByte b = true) : isNameByte b = true := by
  rw [isNameByte, h]
  rfl

theorem ne_close {b : UInt8} (h : isNameStartByte b = true) : b ≠ ')'.toUInt8 := by
  rintro rfl
  exact absurd h (by decide)

/-- a byte that may start a name is a character that may -/
theorem exists_of_isNameStartByte {b : UInt8} (h : isNameStartByte b = true) :
    ∃ c, isNameStart c = true ∧ c.toNat < 128 ∧ b = c.toUInt8 := by
  have hb := toNat_lt_of_isNameByte (isNameByte_of_isNameStartByte h)
  have hsmall : ∀ n < 128, (Char.ofNat n).toNat = n := by decide +kernel
  have hc := hsmall b.toNat hb
  have hbyte : b = (Char.ofNat b.toNat).toUInt8 := by
    rw [← UInt8.toNat_inj, toNat_toUInt8 (by omega), hc]
  refine ⟨Char.ofNat b.toNat, ?_, by omega, hbyte⟩
  rw [← isNameStartByte_toUInt8 (by omega), ← hbyte]
  exact h

theorem forall_isNameByte_iff {s : List Char} :
    (∀ b ∈ utf8 s, isNameByte b = true) ↔ ∀ c ∈ s, isNameChar c = true := by
  constructor
  · intro h c hc
    cases hbytes : String.utf8EncodeChar c with
    | nil => exact absurd hbytes (String.utf8EncodeChar_ne_nil)
    | cons b bs =>
      have hmem : b ∈ String.utf8EncodeChar c := by rw [hbytes]; exact List.mem_cons_self
      have hname := h b (List.mem_flatMap.2 ⟨c, hc, hmem⟩)
      obtain ⟨hsmall, rfl⟩ := eq_of_mem_utf8EncodeChar hmem (toNat_lt_of_isNameByte hname)
      rw [← isNameByte_toUInt8 hsmall]
      exact hname
  · intro h b hb
    obtain ⟨c, hc, hmem⟩ := List.mem_flatMap.1 hb
    have hsmall := toNat_lt_of_isNameChar (h c hc)
    rw [utf8EncodeChar_ascii hsmall, List.mem_singleton] at hmem
    rw [hmem, isNameByte_toUInt8 hsmall]
    exact h c hc

theorem any_head?_utf8 {s : List Char} (h : ∀ c ∈ s, isNameChar c = true) :
    (utf8 s).head?.any isNameStartByte = s.head?.any isNameStart := by
  cases s with
  | nil => rfl
  | cons c s =>
    have hsmall := toNat_lt_of_isNameChar (h c List.mem_cons_self)
    rw [utf8_cons_ascii hsmall]
    exact isNameStartByte_toUInt8 hsmall

theorem utf8_text (p : Placeholder) : utf8 p.text
    = '%'.toUInt8 :: utf8 p.name ++ '('.toUInt8 :: utf8 p.arguments ++ [')'.toUInt8, '%'.toUInt8] := by
  simp only [text, utf8_append, utf8_cons_ascii (c := '%') (by decide), utf8_cons_ascii (c := '(') (by decide),
    utf8_cons_ascii (c := ')') (by decide), List.cons_append]
  rfl

/-- past the opening parenthesis the bytes go on with the arguments -/
theorem drop_arguments {bytes name arguments rest : List UInt8} {p i : Nat}
    (h : bytes.drop p = '%'.toUInt8 :: name ++ '('.toUInt8 :: arguments ++ rest) (hi : i ≤ arguments.length) :
    bytes.drop (argumentsStart p name + i) = arguments.drop i ++ rest := by
  have hsplit : '%'.toUInt8 :: name ++ '('.toUInt8 :: arguments ++ rest
      = ('%'.toUInt8 :: name ++ ['('.toUInt8]) ++ (arguments ++ rest) := by simp
  have hlength : argumentsStart p name + i = p + (('%'.toUInt8 :: name ++ ['('.toUInt8]).length + i) := by
    simp only [argumentsStart, List.length_append, List.length_cons, List.length_nil]
    omega
  rw [hlength, ← List.drop_drop, h, hsplit, List.drop_length_add_append, List.drop_append_of_le_length hi]

/-- the grammar matches at a byte of a text where a well formed placeholder starts there -/
theorem matchesAt_iff {s : List Char} {n : Nat} {name arguments : List UInt8} :
    MatchesAt (utf8 s) n name arguments ↔ ∃ s₁ p s₂, WellFormed p ∧ s = s₁ ++ p.text ++ s₂ ∧ n = utf8Size s₁ ∧
      name = utf8 p.name ∧ arguments = utf8 p.arguments := by
  constructor
  · intro h
    obtain ⟨rest, hrest⟩ := h.shape
    have hdrop : (utf8 s).drop n = '%'.toUInt8 :: name ++ '('.toUInt8 :: arguments ++
        (')'.toUInt8 :: '%'.toUInt8 :: rest) := by simpa using hrest.symm
    have hbytes : utf8 s = (utf8 s).take n ++ '%'.toUInt8 :: (name ++ '('.toUInt8 :: (arguments ++
        ')'.toUInt8 :: '%'.toUInt8 :: rest)) := by
      have hjoin := (List.take_append_drop n (utf8 s)).symm
      rw [hdrop] at hjoin
      simpa using hjoin
    -- the four characters of the shape, one after the other, cut the text into its parts
    obtain ⟨s₁, s₂, hs, h₁, h₂⟩ := exists_of_utf8_cons (c := '%') (by decide) hbytes
    obtain ⟨name', s₃, rfl, rfl, h₃⟩ := exists_of_utf8_cons (c := '(') (by decide) h₂
    obtain ⟨arguments', s₄, rfl, rfl, h₄⟩ := exists_of_utf8_cons (c := ')') (by decide) h₃
    obtain ⟨s₅, s₆, rfl, h₅, -⟩ := exists_of_utf8_cons (c := '%') (x := []) (by decide) h₄
    obtain rfl : s₅ = [] := utf8_eq_nil_iff.1 h₅
    have hn : n = utf8Size s₁ := by
      have hlength := congrArg List.length h₁
      have hpos := congrArg List.length hdrop
      simp only [List.length_drop, List.length_append, List.length_cons] at hpos
      rw [length_utf8, List.length_take] at hlength
      omega
    refine ⟨s₁, ⟨name', arguments'⟩, s₆, ⟨?_, forall_isNameByte_iff.1 h.chars, ?_, ?_⟩, ?_, hn, rfl, rfl⟩
    · rw [← any_head?_utf8 (forall_isNameByte_iff.1 h.chars)]
      exact h.start
    · intro hclose
      rw [← pair_infix_utf8 (by decide) (by decide), ← exists_pair_prefix_drop (z := ')'.toUInt8) (by decide)] at hclose
      obtain ⟨i, hi, hclose⟩ := hclose
      refine h.firstClose i hi ?_
      rw [drop_arguments hdrop (Nat.le_of_lt hi)]
      exact hclose
    · intro c hc hopen
      have hsmall := toNat_lt_of_isNameChar (isNameChar_of_isNameStart hc)
      have hbyte : isNameStartByte c.toUInt8 = true := by rw [isNameStartByte_toUInt8 hsmall]; exact hc
      rw [← pair_infix_utf8 (by decide) hsmall, ← exists_pair_prefix_drop (ne_close hbyte)] at hopen
      obtain ⟨i, hi, hopen⟩ := hopen
      refine h.noOpening i hi _ hbyte ?_
      rw [drop_arguments hdrop (Nat.le_of_lt hi)]
      exact hopen
    · simp [hs, text]
  · rintro ⟨s₁, p, s₂, h, rfl, rfl, rfl, rfl⟩
    have hdrop : (utf8 (s₁ ++ p.text ++ s₂)).drop (utf8Size s₁) = '%'.toUInt8 :: utf8 p.name ++ '('.toUInt8 ::
        utf8 p.arguments ++ (')'.toUInt8 :: '%'.toUInt8 :: utf8 s₂) := by
      rw [List.append_assoc, utf8_append, ← length_utf8, List.drop_left, utf8_append, utf8_text]
      simp
    refine ⟨⟨utf8 s₂, by rw [hdrop]; simp⟩, ?_, forall_isNameByte_iff.2 h.chars, ?_, ?_⟩
    · rw [any_head?_utf8 h.chars]
      exact h.start
    · intro i hi hclose
      rw [drop_arguments hdrop (Nat.le_of_lt hi)] at hclose
      exact h.arguments.firstClose ((pair_infix_utf8 (by decide) (by decide)).1
        ((exists_pair_prefix_drop (by decide)).1 ⟨i, hi, hclose⟩))
    · intro i hi b hb hopen
      rw [drop_arguments hdrop (Nat.le_of_lt hi)] at hopen
      obtain ⟨c, hc, hsmall, rfl⟩ := exists_of_isNameStartByte hb
      exact h.arguments.noOpening c hc ((pair_infix_utf8 (by decide) hsmall).1
        ((exists_pair_prefix_drop (ne_close hb)).1 ⟨i, hi, hopen⟩))

end Placeholder

namespace Template

open Text Placeholder

/-! ## What is found -/

/-- a placeholder that is found stands at its offset and is well formed -/
theorem wellFormed_of_mem_locatedFrom {s : List Char} {offset : Nat} {f : Placeholder × Nat}
    (hf : f ∈ (ofText s).locatedFrom offset) :
    ∃ s₁ s₂, f.1.WellFormed ∧ s = s₁ ++ f.1.text ++ s₂ ∧ f.2 = offset + utf8Size s₁ := by
  fun_induction ofText s generalizing offset with
  | case1 => cases hf
  | case2 c rest p after h ih =>
    obtain ⟨hp, htext⟩ := read?_eq_some_iff.1 h
    rcases List.mem_cons.1 hf with rfl | hf
    · exact ⟨[], after, hp, htext, rfl⟩
    · obtain ⟨s₁, s₂, hwell, hsplit, hoffset⟩ := ih hf
      refine ⟨p.text ++ s₁, s₂, hwell, ?_, ?_⟩
      · rw [htext, hsplit]
        simp
      · rw [hoffset, utf8Size_append, Nat.add_assoc]
  | case3 c rest h ih =>
    obtain ⟨s₁, s₂, hwell, hsplit, hoffset⟩ := ih hf
    refine ⟨c :: s₁, s₂, hwell, ?_, ?_⟩
    · rw [hsplit]
      rfl
    · rw [hoffset, utf8Size_cons, Nat.add_assoc]

theorem wellFormed_of_mem_placeholders {s : List Char} {p : Placeholder} (hp : p ∈ (ofText s).placeholders) :
    p.WellFormed ∧ p.text <:+: s := by
  rw [← map_fst_locatedFrom 0] at hp
  obtain ⟨f, hf, rfl⟩ := List.mem_map.1 hp
  obtain ⟨s₁, s₂, hwell, hs, -⟩ := wellFormed_of_mem_locatedFrom hf
  exact ⟨hwell, s₁, s₂, hs.symm⟩

theorem le_of_mem_locatedFrom {t : Template} {offset : Nat} {f : Placeholder × Nat} (hf : f ∈ t.locatedFrom offset) :
    offset ≤ f.2 := by
  induction t generalizing offset with
  | nil => cases hf
  | cons segment rest ih =>
    cases segment with
    | char c => exact Nat.le_trans (Nat.le_add_right _ _) (ih hf)
    | hole p =>
      rcases List.mem_cons.1 hf with rfl | hf
      · exact Nat.le_refl _
      · exact Nat.le_trans (Nat.le_add_right _ _) (ih hf)

theorem utf8Size_text_pos (p : Placeholder) : 0 < utf8Size p.text := by
  have h := ('%' : Char).utf8Size_pos
  simp only [Placeholder.text, List.cons_append, utf8Size_cons]
  omega

/-- each placeholder ends before the next one starts -/
theorem pairwise_locatedFrom (t : Template) (offset : Nat) :
    (t.locatedFrom offset).Pairwise fun f g => f.2 < g.2 ∧ f.2 + utf8Size f.1.text ≤ g.2 := by
  induction t generalizing offset with
  | nil => exact .nil
  | cons segment rest ih =>
    cases segment with
    | char c => exact ih _
    | hole p =>
      refine List.pairwise_cons.2 ⟨?_, ih _⟩
      intro g hg
      have hle := le_of_mem_locatedFrom hg
      have hpos := utf8Size_text_pos p
      exact ⟨by omega, hle⟩

/--
A well formed placeholder anywhere in a text is found, or it starts at the closing `%` of one that is. The induction
is on the cut of the text: a placeholder that starts inside a found one starts at a `%` with a name after it, and
there is no such `%` but the first.
-/
theorem exists_mem_locatedFrom {s s₁ s₂ : List Char} {q : Placeholder} (hq : q.WellFormed)
    (hs : s = s₁ ++ q.text ++ s₂) (offset : Nat) :
    ∃ f ∈ (ofText s).locatedFrom offset,
      offset + utf8Size s₁ = f.2 ∨ offset + utf8Size s₁ + 1 = f.2 + utf8Size f.1.text := by
  fun_induction ofText s generalizing s₁ offset with
  | case1 => simp [Placeholder.text] at hs
  | case2 c rest p after h ih =>
    obtain ⟨hp, htext⟩ := read?_eq_some_iff.1 h
    rw [htext, List.append_assoc, List.append_eq_append_iff] at hs
    rcases hs with ⟨z, hs₁, hafter⟩ | ⟨z, hptext, hqtext⟩
    · obtain ⟨f, hf, hplace⟩ := ih (by rw [hafter, List.append_assoc]) (offset + utf8Size p.text)
      rw [hs₁, utf8Size_append, ← Nat.add_assoc]
      exact ⟨f, List.mem_cons_of_mem _ hf, hplace⟩
    · rcases hp.overlap hq hptext hqtext with rfl | rfl | rfl
      · exact ⟨(p, offset), List.mem_cons_self, .inl rfl⟩
      · have hafter : after = [] ++ q.text ++ s₂ := hqtext.symm
        obtain ⟨f, hf, hplace⟩ := ih hafter (offset + utf8Size p.text)
        rw [List.append_nil] at hptext
        rw [← hptext]
        exact ⟨f, List.mem_cons_of_mem _ hf, hplace⟩
      · refine ⟨(p, offset), List.mem_cons_self, .inr ?_⟩
        rw [hptext, utf8Size_append, ← Nat.add_assoc]
        rfl
  | case3 c rest h ih =>
    cases s₁ with
    | nil =>
      rw [hs, List.nil_append, read?_eq_some_iff.2 ⟨hq, rfl⟩] at h
      cases h
    | cons d s₁ =>
      obtain ⟨hc, hrest⟩ := List.cons.inj hs
      obtain ⟨f, hf, hplace⟩ := ih hrest (offset + c.utf8Size)
      rw [← hc, utf8Size_cons, ← Nat.add_assoc]
      exact ⟨f, hf, hplace⟩

/--
**What is found in a template is what the grammar matches.** Every placeholder matches at its offset, with its name
and arguments; they come in order, each one past the end of the one before; and where the grammar matches, a
placeholder starts there or has its closing `%` there.
-/
theorem located_grammar (s : List Char) :
    (∀ f ∈ (ofText s).located, MatchesAt (utf8 s) f.2 (utf8 f.1.name) (utf8 f.1.arguments) ∧
      ((utf8 s).drop f.2).take (utf8Size f.1.text) = utf8 f.1.text) ∧
    ((ofText s).located.Pairwise fun f g => f.2 < g.2 ∧ f.2 + utf8Size f.1.text ≤ g.2) ∧
    ∀ n name arguments, MatchesAt (utf8 s) n name arguments →
      ∃ f ∈ (ofText s).located, n = f.2 ∨ n + 1 = f.2 + utf8Size f.1.text := by
  refine ⟨?_, pairwise_locatedFrom _ 0, ?_⟩
  · intro f hf
    obtain ⟨s₁, s₂, hwell, hs, hoffset⟩ := wellFormed_of_mem_locatedFrom hf
    rw [Nat.zero_add] at hoffset
    refine ⟨matchesAt_iff.2 ⟨s₁, f.1, s₂, hwell, hs, hoffset, rfl, rfl⟩, ?_⟩
    rw [hs, hoffset, List.append_assoc, utf8_append, utf8_append, ← length_utf8, ← length_utf8, List.drop_left,
      List.take_left]
  · intro n name arguments h
    obtain ⟨s₁, q, s₂, hwell, hs, rfl, -, -⟩ := matchesAt_iff.1 h
    have hfound := exists_mem_locatedFrom hwell hs 0
    rw [Nat.zero_add] at hfound
    exact hfound

end Template

end StubTemplate
