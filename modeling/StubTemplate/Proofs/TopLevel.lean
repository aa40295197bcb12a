/-
What a scan of an argument text sees at the top level.

`Nesting.readAll` reads a whole text. A text is `Silent` about some marks when none of them stands in it at the top
level; then cutting at such a mark (`piecesFrom_append`) and searching for a pattern that starts with one
(`cutFrom_append`) both pass over the text. `Level` adds that the scan comes back to the depth it started from, so
that texts can be put together (`Level.append`) and put in brackets (`Level.brackets`).

Results on cutting:
- `splitTop_append_cons`: a level text, a delimiter and more text are cut into the first and the pieces of the rest.
- `splitTop_silent`: a text without the delimiter at the top level is one piece if it is not blank.
- `splitTop_trim`: blanks at both ends make no difference to the pieces.
-/
import Mathlib.Data.List.TakeWhile
import StubTemplate.Argument.Nesting

namespace StubTemplate

/-! ## Blanks around a text -/

namespace Text

/-- what holds of all characters of a text is decided by going through the text, not through all characters -/
instance (priority := high) decidableForallMem (p : Char → Prop) [DecidablePred p] (s : List Char) :
    Decidable (∀ c ∈ s, p c) := List.decidableBAll p s

/-- only blanks -/
def Blank (w : List Char) : Prop := ∀ c ∈ w, isBlank c = true

instance (w : List Char) : Decidable (Blank w) := decidableForallMem (fun c => isBlank c = true) w

/-- a text that neither starts nor ends with a blank -/
structure Tight (s : List Char) : Prop where
  nonempty : s ≠ []
  first : ∀ c ∈ s.head?, isBlank c = false
  last : ∀ c ∈ s.getLast?, isBlank c = false

theorem trim_blank_append {w : List Char} (hw : Blank w) (s : List Char) : trim (w ++ s) = trim s := by
  unfold trim trimStart
  rw [List.dropWhile_append_of_pos hw]

theorem trimEnd_append_blank {w : List Char} (hw : Blank w) (s : List Char) : trimEnd (s ++ w) = trimEnd s := by
  unfold trimEnd
  rw [List.reverse_append, List.dropWhile_append_of_pos]
  intro c hc
  exact hw c (List.mem_reverse.1 hc)

theorem trim_append_blank {w : List Char} (hw : Blank w) (s : List Char) : trim (s ++ w) = trim s := by
  unfold trim trimStart
  rw [List.dropWhile_append]
  split
  · rename_i h
    have hs : s.dropWhile isBlank = [] := by simpa using h
    have hd : w.dropWhile isBlank = [] := by
      rw [List.dropWhile_eq_nil_iff]
      exact hw
    rw [hs, hd]
  · exact trimEnd_append_blank hw _

theorem dropWhile_eq_self {s : List Char} (h : ∀ c ∈ s.head?, isBlank c = false) : s.dropWhile isBlank = s := by
  cases s with
  | nil => rfl
  | cons c rest => simp [h c rfl]

theorem Tight.trim_eq {s : List Char} (h : Tight s) : trim s = s := by
  unfold trim trimStart trimEnd
  rw [dropWhile_eq_self h.first, dropWhile_eq_self, List.reverse_reverse]
  rw [List.head?_reverse]
  exact h.last

theorem Tight.trim_padded {w s w' : List Char} (h : Tight s) (hw : Blank w) (hw' : Blank w') :
    trim (w ++ s ++ w') = s := by
  rw [trim_append_blank hw', trim_blank_append hw, h.trim_eq]

/-- nothing is trimmed off a text that neither starts nor ends with a blank, whatever follows it -/
theorem Tight.trim_append {s : List Char} (h : Tight s) (t : List Char) : trim (s ++ t) = s ++ trimEnd t := by
  have hfirst : trimStart (s ++ t) = s ++ t := by
    apply dropWhile_eq_self
    obtain ⟨c, rest, rfl⟩ := List.exists_cons_of_ne_nil h.nonempty
    exact h.first
  have hlast : s.reverse.dropWhile isBlank = s.reverse := by
    apply dropWhile_eq_self
    rw [List.head?_reverse]
    exact h.last
  unfold trim
  rw [hfirst, trimEnd, trimEnd, List.reverse_append, List.dropWhile_append, hlast]
  split
  · rename_i hblank
    rw [List.isEmpty_iff.1 hblank, List.reverse_reverse, List.reverse_nil, List.append_nil]
  · rw [List.reverse_append, List.reverse_reverse]

theorem trim_blank {w : List Char} (hw : Blank w) : trim w = [] := by
  have h := trim_blank_append hw []
  rw [List.append_nil] at h
  rw [h]
  rfl

theorem blank_takeWhile (s : List Char) : Blank (s.takeWhile isBlank) := by
  intro c hc
  exact List.mem_takeWhile_imp hc

/-- trimming takes blanks off both ends -/
theorem exists_blank_trim (s : List Char) : ∃ w w', Blank w ∧ Blank w' ∧ s = w ++ trim s ++ w' := by
  refine ⟨s.takeWhile isBlank, ((trimStart s).reverse.takeWhile isBlank).reverse, blank_takeWhile s, ?_, ?_⟩
  · intro c hc
    exact blank_takeWhile _ c (List.mem_reverse.1 hc)
  · have hend : trimStart s = trim s ++ ((trimStart s).reverse.takeWhile isBlank).reverse := by
      unfold trim trimEnd
      rw [← List.reverse_append, List.takeWhile_append_dropWhile, List.reverse_reverse]
    rw [List.append_assoc, ← hend]
    exact (List.takeWhile_append_dropWhile).symm

theorem trim_eq_nil_iff {s : List Char} : trim s = [] ↔ Blank s := by
  refine ⟨?_, trim_blank⟩
  intro h
  obtain ⟨w, w', hw, hw', hs⟩ := exists_blank_trim s
  rw [hs, h, List.append_nil]
  exact List.forall_mem_append.2 ⟨hw, hw'⟩

theorem trim_trim (s : List Char) : trim (trim s) = trim s := by
  obtain ⟨w, w', hw, hw', hs⟩ := exists_blank_trim s
  calc trim (trim s) = trim (w ++ trim s ++ w') := by rw [trim_append_blank hw', trim_blank_append hw]
    _ = trim s := by rw [← hs]

end Text

/-! ## Reading a text -/

namespace Nesting

/-- reads a text -/
def readAll (n : Nesting) (s : List Char) : Nesting := s.foldl advance n

@[simp] theorem readAll_nil (n : Nesting) : n.readAll [] = n := rfl

@[simp] theorem readAll_cons (n : Nesting) (c : Char) (s : List Char) :
    n.readAll (c :: s) = (n.advance c).readAll s := rfl

@[simp] theorem readAll_append (n : Nesting) (s t : List Char) : n.readAll (s ++ t) = (n.readAll s).readAll t := by
  simp [readAll]

def isBracket (c : Char) : Bool := c == '[' || c == ']'

theorem natAbs_depth_advance_le (n : Nesting) (c : Char) :
    (n.advance c).depth.natAbs ≤ n.depth.natAbs + if isBracket c then 1 else 0 := by
  unfold advance isBracket
  dsimp only
  split_ifs <;> simp_all <;> omega

/-- no text leads further from the top level than it has brackets -/
theorem natAbs_depth_readAll_le (n : Nesting) (s : List Char) :
    (n.readAll s).depth.natAbs ≤ n.depth.natAbs + s.countP isBracket := by
  induction s generalizing n with
  | nil => exact Nat.le_refl _
  | cons c s ih =>
    have hstep := natAbs_depth_advance_le n c
    have hrest := ih (n.advance c)
    rw [readAll_cons, List.countP_cons]
    omega

/-- at depth `depth` outside quotes, after an ordinary character -/
def outside (depth : Int) : Nesting := ⟨depth, none, false⟩

/-- a character without a meaning for the scan -/
def isPlain (c : Char) : Bool := !isQuote c && c != '[' && c != ']' && c != '\\'

theorem isTop_outside (d : Int) : (outside d).isTop = (d == 0) := by simp [isTop, outside]

theorem advance_plain {c : Char} (h : isPlain c = true) (d : Int) : (outside d).advance c = outside d := by
  simp only [isPlain, Bool.and_eq_true, Bool.not_eq_true', bne_iff_ne, ne_eq] at h
  obtain ⟨⟨⟨hq, ho⟩, hc⟩, hb⟩ := h
  simp [advance, quoteAfter, outside, hq, ho, hc, hb]

/-- an ordinary character leaves one at the top level or below it -/
theorem isTop_advance {c : Char} (h : isPlain c = true) (n : Nesting) : (n.advance c).isTop = n.isTop := by
  simp only [isPlain, Bool.and_eq_true, Bool.not_eq_true', bne_iff_ne, ne_eq] at h
  obtain ⟨⟨⟨hq, ho⟩, hc⟩, -⟩ := h
  simp [isTop, advance, quoteAfter, hq, ho, hc]

theorem advance_open (d : Int) : (outside d).advance '[' = outside (d + 1) := by
  simp [advance, quoteAfter, outside, isQuote]

theorem advance_close (d : Int) : (outside (d + 1)).advance ']' = outside d := by
  simp [advance, quoteAfter, outside, isQuote]

theorem quote_cases {q : Char} (hq : isQuote q = true) : q = '\x27' ∨ q = '"' := by simpa [isQuote] using hq

theorem ne_of_isQuote {q c : Char} (hq : isQuote q = true) (hc : isQuote c = false) : q ≠ c := by
  rintro rfl
  rw [hq] at hc
  cases hc

/-- a quote opens a string outside quotes -/
theorem advance_quote {q : Char} (hq : isQuote q = true) (d : Int) : (outside d).advance q = ⟨d, some q, false⟩ := by
  have hb : q ≠ '\\' := ne_of_isQuote hq (by decide)
  simp [advance, quoteAfter, outside, hq, hb]

/-- the opening quote closes the string where it does not stand after a backslash -/
theorem advance_unquote {q : Char} (hq : isQuote q = true) (d : Int) :
    (⟨d, some q, false⟩ : Nesting).advance q = outside d := by
  have hb : q ≠ '\\' := ne_of_isQuote hq (by decide)
  have ho : q ≠ '[' := ne_of_isQuote hq (by decide)
  have hc : q ≠ ']' := ne_of_isQuote hq (by decide)
  simp [advance, quoteAfter, outside, hq, hb, ho, hc]

/-- inside a string nothing but the opening quote, not escaped, is more than a character -/
theorem advance_inside {n : Nesting} {q c : Char} (hn : n.quote = some q) (hc : c ≠ q ∨ n.escaped = true) :
    n.advance c = ⟨n.depth, some q, c == '\\'⟩ := by
  have h : n.quoteAfter c = some q := by
    unfold quoteAfter
    split
    · rename_i hquote
      have hcq : q ≠ c := by
        rcases hc with hc | hc
        · exact hc.symm
        · simp [hc] at hquote
      simp [hn, hcq]
    · exact hn
  simp [advance, h]

theorem isPlain_of_isBlank {c : Char} (h : Text.isBlank c = true) : isPlain c = true := by
  have hne : ∀ {d : Char}, Text.isBlank d = false → c ≠ d := by
    rintro d hd rfl
    simp [h] at hd
  have hquote : isQuote c = false := by
    simp [isQuote, hne (d := '\x27') (by decide), hne (d := '"') (by decide)]
  simp [isPlain, hquote, hne (d := '[') (by decide), hne (d := ']') (by decide), hne (d := '\\') (by decide)]

/-- blanks leave the state outside quotes as it is -/
theorem readAll_plain {w : List Char} (hw : ∀ c ∈ w, isPlain c = true) (d : Int) :
    (outside d).readAll w = outside d := by
  induction w with
  | nil => rfl
  | cons c w ih =>
    rw [readAll_cons, advance_plain (hw c List.mem_cons_self)]
    apply ih
    intro c' hc'
    exact hw c' (List.mem_cons_of_mem c hc')

/-! ## Silence and level texts -/

/-- no character out of `marks` stands in the text at the top level, when `n` has been read before -/
def Silent (marks : List Char) (n : Nesting) : List Char → Prop
  | [] => True
  | c :: rest => (c ∈ marks → (n.advance c).isTop = false) ∧ Silent marks (n.advance c) rest

theorem silent_append {marks : List Char} {n : Nesting} {s t : List Char} :
    Silent marks n (s ++ t) ↔ Silent marks n s ∧ Silent marks (n.readAll s) t := by
  induction s generalizing n with
  | nil => simp [Silent]
  | cons c s ih => simp only [List.cons_append, Silent, ih, readAll_cons, and_assoc]

theorem Silent.mono {marks marks' : List Char} {n : Nesting} {s : List Char} (h : Silent marks n s)
    (hm : marks' ⊆ marks) : Silent marks' n s := by
  induction s generalizing n with
  | nil => trivial
  | cons c s ih =>
    refine ⟨?_, ih h.2⟩
    intro hc
    exact h.1 (hm hc)

theorem silent_of_notMem {marks : List Char} {n : Nesting} {s : List Char} (h : ∀ c ∈ s, c ∉ marks) :
    Silent marks n s := by
  induction s generalizing n with
  | nil => trivial
  | cons c s ih =>
    constructor
    · intro hc
      exact absurd hc (h c List.mem_cons_self)
    · apply ih
      intro c' hc'
      exact h c' (List.mem_cons_of_mem c hc')

/-- below the top level plain characters are silent, marks or not -/
theorem silent_plain {marks : List Char} {d : Int} (hd : d ≠ 0) {s : List Char} (hs : ∀ c ∈ s, isPlain c = true) :
    Silent marks (outside d) s := by
  induction s with
  | nil => trivial
  | cons c s ih =>
    have hadvance := advance_plain (hs c List.mem_cons_self) d
    constructor
    · intro _
      rw [hadvance, isTop_outside]
      simpa using hd
    · rw [hadvance]
      apply ih
      intro c' hc'
      exact hs c' (List.mem_cons_of_mem c hc')

/-- a text without marks at the top level that leads back to the depth it starts from -/
structure Level (marks : List Char) (d : Int) (s : List Char) : Prop where
  silent : Silent marks (outside d) s
  back : (outside d).readAll s = outside d

theorem Level.append {marks : List Char} {d : Int} {s t : List Char} (hs : Level marks d s) (ht : Level marks d t) :
    Level marks d (s ++ t) := by
  refine ⟨silent_append.2 ⟨hs.silent, ?_⟩, ?_⟩
  · rw [hs.back]
    exact ht.silent
  · rw [readAll_append, hs.back, ht.back]

theorem Level.mono {marks marks' : List Char} {d : Int} {s : List Char} (h : Level marks d s) (hm : marks' ⊆ marks) :
    Level marks' d s :=
  ⟨h.silent.mono hm, h.back⟩

/-- plain characters are level where they are no marks, and below the top level even if they are -/
theorem level_plain {marks : List Char} {d : Int} {s : List Char} (hs : ∀ c ∈ s, isPlain c = true)
    (hm : d ≠ 0 ∨ ∀ c ∈ s, c ∉ marks) : Level marks d s := by
  refine ⟨?_, readAll_plain hs d⟩
  rcases hm with hd | hnot
  · exact silent_plain hd hs
  · exact silent_of_notMem hnot

theorem level_blank {marks : List Char} {d : Int} {w : List Char} (hw : Text.Blank w)
    (hm : ∀ c ∈ marks, Text.isBlank c = false) : Level marks d w := by
  have hplain : ∀ c ∈ w, isPlain c = true := by
    intro c hc
    exact isPlain_of_isBlank (hw c hc)
  apply level_plain hplain
  right
  intro c hc hmark
  have hblank := hw c hc
  rw [hm c hmark] at hblank
  exact absurd hblank (by decide)

/-- brackets around a text that is level one deeper -/
theorem Level.brackets {marks : List Char} {d : Int} {s : List Char} (h : Level marks (d + 1) s)
    (hopen : '[' ∉ marks) (hclose : ']' ∉ marks) : Level marks d ('[' :: s ++ [']']) := by
  constructor
  · refine ⟨?_, ?_⟩
    · intro hc
      exact absurd hc hopen
    · rw [advance_open]
      exact silent_append.2 ⟨h.silent, fun hc => absurd hc hclose, trivial⟩
  · rw [List.cons_append, readAll_cons, advance_open, readAll_append, h.back, readAll_cons, advance_close]
    rfl

end Nesting

/-! ## Cutting -/

namespace Argument

open Nesting Text

theorem piecesFrom_append {marks : List Char} {delimiter : Char} {n : Nesting} {s t piece : List Char}
    {pieces : List (List Char)} (hd : delimiter ∈ marks) (hs : Silent marks n s)
    (ht : piecesFrom delimiter (n.readAll s) t = piece :: pieces) :
    piecesFrom delimiter n (s ++ t) = (s ++ piece) :: pieces := by
  induction s generalizing n with
  | nil => exact ht
  | cons c s ih =>
    obtain ⟨hc, hs⟩ := hs
    have hstay : ¬ (c = delimiter ∧ (n.advance c).isTop = true) := by
      rintro ⟨rfl, htop⟩
      rw [hc hd] at htop
      exact absurd htop (by decide)
    rw [List.cons_append, piecesFrom, if_neg hstay, ih hs ht]
    rfl

theorem cutFrom_append {marks pattern : List Char} {mark : Char} {accepts : Option Char → Bool} {n : Nesting}
    {s : List Char} (hm : mark ∈ marks) (hs : Silent marks n s) (t : List Char) :
    cutFrom (mark :: pattern) accepts n (s ++ t)
      = (cutFrom (mark :: pattern) accepts (n.readAll s) t).map fun cut => (s ++ cut.1, cut.2) := by
  induction s generalizing n with
  | nil => simp
  | cons c s ih =>
    obtain ⟨hc, hs⟩ := hs
    have hstay : ¬ ((n.advance c).isTop = true ∧ mark :: pattern <+: c :: (s ++ t)
        ∧ accepts ((c :: (s ++ t)).drop (mark :: pattern).length).head? = true) := by
      rintro ⟨htop, hpattern, -⟩
      have hmark : mark = c := (List.cons_prefix_cons.1 hpattern).1
      rw [hc (hmark ▸ hm)] at htop
      exact absurd htop (by decide)
    rw [List.cons_append, cutFrom, if_neg hstay, ih hs, Option.map_map]
    rfl

/-- a silent text is not cut -/
theorem piecesFrom_silent {marks : List Char} {delimiter : Char} {n : Nesting} {s : List Char}
    (hd : delimiter ∈ marks) (hs : Silent marks n s) : piecesFrom delimiter n s = [s] := by
  have h : piecesFrom delimiter n (s ++ []) = [s ++ []] := piecesFrom_append hd hs rfl
  rwa [List.append_nil] at h

/-- a search passes over a level text -/
theorem cutTop_append {marks pattern s : List Char} {mark : Char} {accepts : Option Char → Bool} (hm : mark ∈ marks)
    (hs : Level marks 0 s) (t : List Char) :
    cutTop (mark :: pattern) accepts (s ++ t)
      = (cutTop (mark :: pattern) accepts t).map fun cut => (s ++ cut.1, cut.2) := by
  have hsilent : Silent marks .start s := hs.silent
  have hback : Nesting.start.readAll s = .start := hs.back
  rw [cutTop, cutTop, if_neg (List.cons_ne_nil _ _), if_neg (List.cons_ne_nil _ _), cutFrom_append hm hsilent, hback]

/-- nothing is found in a level text -/
theorem cutTop_level {marks pattern s : List Char} {mark : Char} {accepts : Option Char → Bool} (hm : mark ∈ marks)
    (hs : Level marks 0 s) : cutTop (mark :: pattern) accepts s = none := by
  have h : cutTop (mark :: pattern) accepts (s ++ []) = none := cutTop_append hm hs []
  rwa [List.append_nil] at h

section Search

variable {mark : Char} {pattern : List Char} {accepts : Option Char → Bool}

/-- a search stops at the top level, before something that it accepts -/
theorem isTop_of_cutFrom {n : Nesting} {s : List Char} {cut : List Char × List Char}
    (h : cutFrom (mark :: pattern) accepts n s = some cut) :
    ((n.readAll cut.1).advance mark).isTop = true ∧ accepts cut.2.head? = true := by
  induction s generalizing n cut with
  | nil => cases h
  | cons c s ih =>
    rw [cutFrom] at h
    split at h
    · rename_i hhere
      obtain ⟨htop, hpattern, haccepts⟩ := hhere
      cases h
      rw [(List.cons_prefix_cons.1 hpattern).1]
      exact ⟨htop, haccepts⟩
    · obtain ⟨inner, hinner, rfl⟩ := Option.map_eq_some_iff.1 h
      have hrest := ih hinner
      exact hrest

/-- a search stops no later than at any place where it may -/
theorem exists_cutFrom {n : Nesting} {x y : List Char} (htop : ((n.readAll x).advance mark).isTop = true)
    (haccepts : accepts y.head? = true) :
    ∃ cut, cutFrom (mark :: pattern) accepts n (x ++ (mark :: pattern ++ y)) = some cut ∧ cut.1 <+: x := by
  induction x generalizing n with
  | nil =>
    refine ⟨([], y), ?_, List.nil_prefix⟩
    rw [List.nil_append, List.cons_append, cutFrom, ← List.cons_append, List.drop_left,
      if_pos ⟨htop, List.prefix_append _ _, haccepts⟩]
  | cons c x ih =>
    rw [List.cons_append, cutFrom]
    split
    · exact ⟨_, rfl, List.nil_prefix⟩
    · obtain ⟨cut, hcut, hprefix⟩ := ih htop
      rw [hcut]
      exact ⟨_, rfl, List.cons_prefix_cons.2 ⟨rfl, hprefix⟩⟩

end Search

theorem dropEmptyLast_cons (piece : List Char) {pieces : List (List Char)} (h : pieces ≠ []) :
    dropEmptyLast (piece :: pieces) = piece :: dropEmptyLast pieces := by
  obtain ⟨p, ps, rfl⟩ := List.exists_cons_of_ne_nil h
  unfold dropEmptyLast
  rw [List.getLast?_cons_cons, List.dropLast_cons_cons]
  split <;> rfl

/-- a first piece that is not empty stays -/
theorem exists_dropEmptyLast {piece : List Char} (h : piece ≠ []) (pieces : List (List Char)) :
    ∃ rest, dropEmptyLast (piece :: pieces) = piece :: rest := by
  by_cases hpieces : pieces = []
  · exact ⟨[], by simp [dropEmptyLast, hpieces, h]⟩
  · exact ⟨_, dropEmptyLast_cons piece hpieces⟩

/-- a text without the delimiter at the top level is one piece if it is not blank -/
theorem splitTop_silent {marks : List Char} {delimiter : Char} {s : List Char} (hd : delimiter ∈ marks)
    (hs : Silent marks .start s) (hne : trim s ≠ []) : splitTop delimiter s = [trim s] := by
  have hpieces : piecesFrom delimiter .start s = [s] := piecesFrom_silent hd hs
  simp [splitTop, hpieces, dropEmptyLast, hne]

theorem silent_blank {delimiter : Char} (hd : isBlank delimiter = false) {w : List Char} (hw : Blank w)
    (n : Nesting) : Silent [delimiter] n w := by
  apply silent_of_notMem
  intro c hc hmark
  have hblank := hw c hc
  rw [List.mem_singleton.1 hmark, hd] at hblank
  exact absurd hblank (by decide)

theorem splitTop_blank {delimiter : Char} (hd : isBlank delimiter = false) {w : List Char} (hw : Blank w) :
    splitTop delimiter w = [] := by
  have hpieces : piecesFrom delimiter .start w = [w] := piecesFrom_silent List.mem_cons_self (silent_blank hd hw _)
  simp [splitTop, hpieces, dropEmptyLast, trim_blank hw]

/-- a level text in front of a delimiter is the first piece -/
theorem splitTop_append_cons {marks : List Char} {delimiter : Char} {s : List Char} (hd : delimiter ∈ marks)
    (hplain : isPlain delimiter = true) (hs : Level marks 0 s) (t : List Char) :
    splitTop delimiter (s ++ delimiter :: t) = trim s :: splitTop delimiter t := by
  have hcut : piecesFrom delimiter (outside 0) (delimiter :: t) = [] :: piecesFrom delimiter .start t := by
    rw [piecesFrom, advance_plain hplain, if_pos ⟨rfl, rfl⟩]
    rfl
  have hpieces : piecesFrom delimiter .start (s ++ delimiter :: t) = (s ++ []) :: piecesFrom delimiter .start t :=
    piecesFrom_append hd hs.silent (hs.back ▸ hcut)
  rw [List.append_nil] at hpieces
  have hne : (piecesFrom delimiter .start t).map trim ≠ [] := by simp [piecesFrom_ne_nil]
  rw [splitTop, hpieces, List.map_cons, dropEmptyLast_cons _ hne, splitTop]

/-- blanks at the end of a text belong to its last piece -/
theorem piecesFrom_append_blank {delimiter : Char} (hd : isBlank delimiter = false) {w : List Char} (hw : Blank w)
    (n : Nesting) (s : List Char) :
    ∃ pieces last, piecesFrom delimiter n s = pieces ++ [last]
      ∧ piecesFrom delimiter n (s ++ w) = pieces ++ [last ++ w] := by
  induction s generalizing n with
  | nil => exact ⟨[], [], rfl, piecesFrom_silent List.mem_cons_self (silent_blank hd hw n)⟩
  | cons c s ih =>
    obtain ⟨pieces, last, hs, hsw⟩ := ih (n.advance c)
    simp only [List.cons_append, piecesFrom, hs, hsw]
    split
    · exact ⟨[] :: pieces, last, rfl, rfl⟩
    · cases pieces with
      | nil => exact ⟨[], c :: last, rfl, rfl⟩
      | cons piece pieces => exact ⟨(c :: piece) :: pieces, last, rfl, rfl⟩

/-- blanks at the start of a text belong to its first piece -/
theorem piecesFrom_blank_append {delimiter : Char} (hd : isBlank delimiter = false) {w : List Char} (hw : Blank w)
    (s : List Char) :
    ∃ piece pieces, piecesFrom delimiter .start s = piece :: pieces
      ∧ piecesFrom delimiter .start (w ++ s) = (w ++ piece) :: pieces := by
  obtain ⟨piece, pieces, hs⟩ := List.exists_cons_of_ne_nil (piecesFrom_ne_nil delimiter .start s)
  refine ⟨piece, pieces, hs, piecesFrom_append List.mem_cons_self (silent_blank hd hw _) ?_⟩
  have hback : Nesting.start.readAll w = .start := readAll_plain (fun c hc => isPlain_of_isBlank (hw c hc)) 0
  rw [hback]
  exact hs

/-- blanks at both ends of a text make no difference to its pieces -/
theorem splitTop_trim {delimiter : Char} (hd : isBlank delimiter = false) (s : List Char) :
    splitTop delimiter (trim s) = splitTop delimiter s := by
  obtain ⟨w, w', hw, hw', hs⟩ := exists_blank_trim s
  obtain ⟨pieces, last, htrim, hend⟩ := piecesFrom_append_blank hd hw' .start (trim s)
  obtain ⟨piece, rest, hmid, hboth⟩ := piecesFrom_blank_append hd hw (trim s ++ w')
  have hmap : (piecesFrom delimiter .start (trim s)).map trim = (piecesFrom delimiter .start s).map trim := by
    calc (piecesFrom delimiter .start (trim s)).map trim
        = (piecesFrom delimiter .start (trim s ++ w')).map trim := by
          rw [htrim, hend, List.map_append, List.map_append, List.map_singleton, List.map_singleton,
            trim_append_blank hw']
      _ = (piecesFrom delimiter .start (w ++ (trim s ++ w'))).map trim := by
          rw [hmid, hboth, List.map_cons, List.map_cons, trim_blank_append hw]
      _ = (piecesFrom delimiter .start s).map trim := by rw [← List.append_assoc, ← hs]
  rw [splitTop, hmap, splitTop]

end Argument

end StubTemplate
