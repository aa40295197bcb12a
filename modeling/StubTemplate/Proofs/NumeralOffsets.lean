/-
Telling numerals by their parts, with the offset of an exponent.

A text is a numeral if what stands before the first mark of an exponent is digits with at most one point, and what stands
behind the mark, if there is one, is digits after an optional sign. The mark is found as a byte offset, and the two
parts are slices from the start to the mark and from behind it to the end. The mark is an ASCII character, so both are
there. Main results: `isNumeral_eq`, the texts that are told to be numerals are those that are read as one, and
`scalar_eq`, the scalars told that way are those of `Argument.scalar`.
-/
import StubTemplate.Proofs.FloatTexts
import StubTemplate.Proofs.NumberScalars
import StubTemplate.Proofs.Slices

namespace StubTemplate.ByOffset

open Text Numeral

/-- the marks of an exponent -/
def isMark (c : Char) : Bool := c == 'e' || c == 'E'

/-- the offset of the first mark in a text -/
def markOffset? (s : List Char) : Option Nat :=
  if s.any isMark then some (utf8Size (s.takeWhile fun c => !isMark c)) else none

/-- digits with at most one point, which need not stand between digits -/
def isMantissa (s : List Char) : Bool :=
  match splitOnce '.' s with
  | none => s != [] && s.all Char.isDigit
  | some (whole, fraction) => whole ++ fraction != [] && whole.all Char.isDigit && fraction.all Char.isDigit

/-- digits after an optional sign -/
def isExponent (s : List Char) : Bool :=
  let digits := (readSign s).2
  digits != [] && digits.all Char.isDigit

/-- whether a text is a numeral -/
def isNumeral (token : List Char) : Except Failure Bool :=
  let body := (readSign token).2
  match markOffset? body with
  | none => .ok (isMantissa body)
  | some mark => do
    let mantissa ← slice body 0 mark
    let exponent ← slice body (mark + 1) (utf8Size body)
    return isMantissa mantissa && isExponent exponent

/-! ## The parts -/

theorem eq_of_splitOnce {separator : Char} {s before after : List Char}
    (h : splitOnce separator s = some (before, after)) : s = before ++ separator :: after := by
  have hmem : separator ∈ s := by
    by_contra hnot
    rw [splitOnce, if_neg hnot] at h
    cases h
  obtain ⟨x, y, rfl, hx⟩ := List.eq_append_cons_of_mem hmem
  rw [splitOnce_append hx] at h
  cases h
  rfl

/-- digits before and after a point, and at least one of them -/
structure IsMantissa (whole : List Char) (fraction : Option (List Char)) : Prop where
  nonempty : whole ++ fraction.getD [] ≠ []
  isDigit : ∀ c ∈ whole ++ fraction.getD [], c.isDigit = true

theorem isMantissa_iff {s : List Char} :
    isMantissa s = true ↔ ∃ whole fraction, IsMantissa whole fraction ∧ s = whole ++ fractionText fraction := by
  constructor
  · intro h
    unfold isMantissa at h
    split at h
    · simp only [Bool.and_eq_true, bne_iff_ne, List.all_eq_true] at h
      exact ⟨s, none, ⟨by simpa using h.1, by simpa using h.2⟩, by simp [fractionText]⟩
    · rename_i whole fraction hsplit
      simp only [Bool.and_eq_true, bne_iff_ne, List.all_eq_true] at h
      refine ⟨whole, some fraction, ⟨h.1.1, ?_⟩, eq_of_splitOnce hsplit⟩
      intro c hc
      rcases List.mem_append.1 hc with hc | hc
      · exact h.1.2 c hc
      · exact h.2 c hc
  · rintro ⟨whole, fraction, h, rfl⟩
    have hpoint : '.' ∉ whole := point_notMem_digits fun c hc => h.isDigit c (List.mem_append_left _ hc)
    cases fraction with
    | none =>
      have hnone : splitOnce '.' whole = none := if_neg hpoint
      rw [fractionText, List.append_nil, isMantissa, hnone]
      simpa using And.intro h.nonempty h.isDigit
    | some fraction =>
      have hsome : splitOnce '.' (whole ++ fractionText (some fraction)) = some (whole, fraction) :=
        splitOnce_append hpoint
      have hdigits := List.forall_mem_append.1 h.isDigit
      rw [isMantissa, hsome]
      simp only [Bool.and_eq_true, bne_iff_ne, List.all_eq_true]
      exact ⟨⟨h.nonempty, hdigits.1⟩, hdigits.2⟩

theorem isExponent_iff {s : List Char} : isExponent s = true ↔
    ∃ negative digits, digits ≠ [] ∧ (∀ c ∈ digits, c.isDigit = true) ∧ ∃ sign ∈ signs negative, s = sign ++ digits := by
  constructor
  · intro h
    simp only [isExponent, Bool.and_eq_true, bne_iff_ne, List.all_eq_true] at h
    exact ⟨(readSign s).1, (readSign s).2, h.1, h.2, eq_of_readSign s⟩
  · rintro ⟨negative, digits, hne, hdigits, sign, hsign, rfl⟩
    have hhead : ∀ c ∈ digits.head?, c ≠ '+' ∧ c ≠ '-' := fun c hc =>
      ne_sign_of_isDigit (hdigits c (List.mem_of_mem_head? hc))
    simpa [isExponent, readSign_append hsign hhead] using And.intro hne hdigits

/-- a numeral is a mantissa and an exponent behind a sign -/
theorem exists_spells_iff {t : List Char} : (∃ n, Spells n t) ↔ ∃ whole fraction exponent text,
    IsMantissa whole fraction ∧ SpellsExponent exponent text ∧
      (readSign t).2 = whole ++ fractionText fraction ++ text := by
  constructor
  · rintro ⟨n, h⟩
    obtain ⟨text, htext, hbody⟩ := h.readSign_eq
    exact ⟨n.whole, n.fraction, n.exponent, text, ⟨h.nonempty, h.isDigit⟩, htext, by rw [hbody, List.append_assoc]⟩
  · rintro ⟨whole, fraction, exponent, text, h, htext, ht⟩
    obtain ⟨sign, hsign, hsplit⟩ := eq_of_readSign t
    refine ⟨⟨(readSign t).1, whole, fraction, exponent⟩, h.nonempty, h.isDigit, sign, hsign, text, htext, ?_⟩
    rw [← List.append_assoc whole, ← ht]
    exact hsplit

/-! ## The mark -/

theorem isMark_eq_false_of_isDigit {c : Char} (h : c.isDigit = true) : isMark c = false := by
  have he : c ≠ 'e' := ne_of_isDigit h (by decide)
  have hE : c ≠ 'E' := ne_of_isDigit h (by decide)
  simp [isMark, he, hE]

theorem IsMantissa.isMark_eq_false {whole : List Char} {fraction : Option (List Char)} (h : IsMantissa whole fraction) :
    ∀ c ∈ whole ++ fractionText fraction, isMark c = false := by
  have hdigits := List.forall_mem_append.1 h.isDigit
  rw [List.forall_mem_append]
  refine ⟨fun c hc => isMark_eq_false_of_isDigit (hdigits.1 c hc), ?_⟩
  cases fraction with
  | none => simp [fractionText]
  | some fraction =>
    exact List.forall_mem_cons.2 ⟨by decide, fun c hc => isMark_eq_false_of_isDigit (hdigits.2 c hc)⟩

theorem isMark_iff {c : Char} : isMark c = true ↔ c ∈ ['e', 'E'] := by simp [isMark]

/-- the first mark of a text stands at one place only -/
theorem eq_of_append_mark {x y s t : List Char} {a b : Char} (hx : ∀ c ∈ x, isMark c = false)
    (hy : ∀ c ∈ y, isMark c = false) (ha : isMark a = true) (hb : isMark b = true)
    (h : x ++ a :: s = y ++ b :: t) : x = y ∧ s = t := by
  have htake : ∀ (z u : List Char) (d : Char), (∀ c ∈ z, isMark c = false) → isMark d = true →
      (z ++ d :: u).takeWhile (fun c => !isMark c) = z := by
    intro z u d hz hd
    rw [List.takeWhile_append_of_pos fun c hc => by simp [hz c hc], List.takeWhile_cons_of_neg (by simp [hd]),
      List.append_nil]
  have hxy : x = y := by rw [← htake x s a hx ha, h, htake y t b hy hb]
  subst hxy
  exact ⟨rfl, (List.cons.inj (List.append_cancel_left h)).2⟩

/-- a text without a mark is all mantissa -/
theorem isNumeral_of_forall {t : List Char} (h : ∀ c ∈ (readSign t).2, isMark c = false) :
    isNumeral t = .ok (isMantissa (readSign t).2) := by
  have hnone : markOffset? (readSign t).2 = none := by
    rw [markOffset?, if_neg]
    simpa using h
  rw [isNumeral]
  simp only [hnone]

/-- what stands before the first mark and what stands behind it are there as slices -/
theorem isNumeral_of_mark {t m e : List Char} {mark : Char} (h : (readSign t).2 = m ++ mark :: e)
    (hm : ∀ c ∈ m, isMark c = false) (hmark : isMark mark = true) :
    isNumeral t = .ok (isMantissa m && isExponent e) := by
  have hone : mark.utf8Size = 1 := by
    have hmem := isMark_iff.1 hmark
    simp only [List.mem_cons, List.not_mem_nil, or_false] at hmem
    rcases hmem with rfl | rfl <;> decide
  have hoffset : markOffset? (m ++ mark :: e) = some (utf8Size m) := by
    rw [markOffset?, if_pos (by simp [hmark]), List.takeWhile_append_of_pos fun c hc => by simp [hm c hc],
      List.takeWhile_cons_of_neg (by simp [hmark]), List.append_nil]
  have hmantissa : slice (m ++ mark :: e) 0 (utf8Size m) = .ok m := slice_before m (mark :: e)
  have hsize : utf8Size m + 1 = utf8Size (m ++ [mark]) := by simp [hone]
  have hsplit : m ++ mark :: e = m ++ [mark] ++ e := by simp
  have hexponent : slice (m ++ mark :: e) (utf8Size m + 1) (utf8Size (m ++ mark :: e)) = .ok e := by
    rw [hsize, hsplit, slice_behind]
  rw [isNumeral]
  simp only [h, hoffset, hmantissa, hexponent]
  rfl

theorem exists_mark {s : List Char} (h : ¬ ∀ c ∈ s, isMark c = false) :
    ∃ m mark e, s = m ++ mark :: e ∧ (∀ c ∈ m, isMark c = false) ∧ isMark mark = true := by
  have hsplit := List.takeWhile_append_dropWhile (p := fun c => !isMark c) (l := s)
  have hm : ∀ c ∈ s.takeWhile fun c => !isMark c, isMark c = false := by
    intro c hc
    simpa using List.mem_takeWhile_imp hc
  cases hrest : s.dropWhile fun c => !isMark c with
  | nil =>
    rw [hrest, List.append_nil] at hsplit
    rw [hsplit] at hm
    exact absurd hm h
  | cons mark e =>
    have hmark := List.head?_dropWhile_not (fun c => !isMark c) s
    rw [hrest] at hmark hsplit
    exact ⟨_, mark, e, hsplit.symm, hm, by simpa using hmark⟩

/-- the texts that are told to be numerals by their parts are those that are read as one -/
theorem isNumeral_eq (t : List Char) : isNumeral t = .ok (Numeral.read? t).isSome := by
  have hread : (Numeral.read? t).isSome = true ↔ ∃ n, Spells n t := by
    simp only [Option.isSome_iff_exists, read?_eq_some_iff]
  by_cases hmarks : ∀ c ∈ (readSign t).2, isMark c = false
  · rw [isNumeral_of_forall hmarks, Except.ok.injEq, Bool.eq_iff_iff, hread, exists_spells_iff, isMantissa_iff]
    constructor
    · rintro ⟨whole, fraction, h, ht⟩
      exact ⟨whole, fraction, none, [], h, rfl, by rw [ht, List.append_nil]⟩
    · rintro ⟨whole, fraction, exponent, text, h, htext, ht⟩
      refine ⟨whole, fraction, h, ?_⟩
      cases exponent with
      | none => rw [ht, htext, List.append_nil]
      | some exponent =>
        obtain ⟨-, -, mark, hmark, sign, -, rfl⟩ := htext
        have hnot := hmarks mark (by simp [ht])
        rw [isMark_iff.2 hmark] at hnot
        cases hnot
  · obtain ⟨m, mark, e, hbody, hm, hmark⟩ := exists_mark hmarks
    rw [isNumeral_of_mark hbody hm hmark, Except.ok.injEq, Bool.eq_iff_iff, hread, exists_spells_iff, Bool.and_eq_true,
      isMantissa_iff, isExponent_iff]
    constructor
    · rintro ⟨⟨whole, fraction, h, rfl⟩, negative, digits, hne, hdigits, sign, hsign, rfl⟩
      exact ⟨whole, fraction, some (negative, digits), mark :: (sign ++ digits), h,
        ⟨hne, hdigits, mark, isMark_iff.1 hmark, sign, hsign, rfl⟩, hbody⟩
    · rintro ⟨whole, fraction, exponent, text, h, htext, ht⟩
      cases exponent with
      | none =>
        rw [htext, List.append_nil] at ht
        exact absurd (ht ▸ h.isMark_eq_false) hmarks
      | some exponent =>
        obtain ⟨hne, hdigits, mark', hmark', sign, hsign, rfl⟩ := htext
        obtain ⟨rfl, rfl⟩ := eq_of_append_mark hm h.isMark_eq_false hmark (isMark_iff.2 hmark') (hbody.symm.trans ht)
        exact ⟨⟨whole, fraction, h, rfl⟩, exponent.1, exponent.2, hne, hdigits, sign, hsign, rfl⟩

/-! ## Scalars -/

/-- the number that a numeral is: with a point the nearest number, without one an integer -/
def number (token : List Char) : Value :=
  if '.' ∈ token then .float ((parseNearest token).getD ⟨false, 0⟩) else .int (integerOf parseNearest token)

/-- the text between two equal quotes, which is empty if there is nothing between them -/
def unquote? (token : List Char) : Option (List Char) :=
  if ['\x27', '"'].any fun quote => token.head? == some quote && token.getLast? == some quote then
    some ((get? 1 (utf8Size token - 1) token).getD [])
  else none

/-- the value of a text that is no array -/
def scalar (s : List Char) : Except Failure Value :=
  let token := trim s
  if Argument.isWord "null" token then .ok .null
  else if Argument.isWord "true" token then .ok (.bool true)
  else if Argument.isWord "false" token then .ok (.bool false)
  else do
    if ← isNumeral token then return number token
    else
      match unquote? token with
      | some body => return .str (String.ofList (Argument.unescape body))
      | none => return .str (String.ofList token)

theorem number_eq {token : List Char} {n : Numeral} (h : Numeral.read? token = some n) :
    number token = if n.fraction.isSome then .float n.toBinary64 else .int n.toInt64 := by
  have hspells := spells_of_read? h
  cases hfraction : n.fraction with
  | none =>
    have hpoint : '.' ∉ token := by simp [hspells.point_mem_iff, hfraction]
    rw [number, if_neg hpoint, integerOf_eq parsesNearest_parseNearest hspells hfraction]
    rfl
  | some digits =>
    have hpoint : '.' ∈ token := by simp [hspells.point_mem_iff, hfraction]
    rw [number, if_pos hpoint, parseNearest, h]
    rfl

/-- scalars are the same by offsets and by characters -/
theorem scalar_eq (s : List Char) : scalar s = .ok (Argument.scalar s) := by
  have hunquote : unquote? (trim s) = Argument.unquote? (trim s) := by
    rw [unquote?, ← Argument.inside_eq_get?, Argument.unquote?]
  unfold scalar Argument.scalar
  dsimp only
  rw [hunquote, isNumeral_eq]
  split_ifs
  · rfl
  · rfl
  · rfl
  · cases hread : Numeral.read? (trim s) with
    | some n => exact congrArg Except.ok (number_eq hread)
    | none => cases Argument.unquote? (trim s) <;> rfl

end StubTemplate.ByOffset
