/-
The words of a text, and the text on one line.

`Runs s ws`: the maximal runs of characters of `s` that are not blank are `ws`, in order. Every text has one such list
of runs, and `words` is this list (`runs_iff`). Words on either side of a blank do not touch (`words_append`), and words
joined by spaces are the words of the joined text (`words_join`).

Main result: `flatten_canonical`. A flattened text is `OneLine` and has the words of the text it was made from, so it is
the one text on one line with these words: flattening a second time changes nothing, two texts are flattened to the same
one exactly if they have the same words, and texts with blanks between them can be flattened apart and joined.
-/
import Mathlib.Data.List.Chain
import StubTemplate.Proofs.Sequences
import StubTemplate.Proofs.TopLevel

namespace StubTemplate.Text

/-! ## Words -/

/-- a run of characters that are not blank -/
structure IsWord (w : List Char) : Prop where
  nonempty : w ≠ []
  notBlank : ∀ c ∈ w, isBlank c = false

/--
The maximal runs of characters that are not blank, in order: each stands after blanks or at the start of the text, and
before a blank or at the end.
-/
inductive Runs : List Char → List (List Char) → Prop where
  | blank {s : List Char} (hs : Blank s) : Runs s []
  | word {before w rest : List Char} {ws : List (List Char)} (hbefore : Blank before) (hw : IsWord w)
    (hrest : ∀ c ∈ rest.head?, isBlank c = true) (h : Runs rest ws) : Runs (before ++ (w ++ rest)) (w :: ws)

theorem words_cons_of_isBlank {c : Char} (hc : isBlank c = true) (s : List Char) : words (c :: s) = words s := by
  rw [words.eq_def]
  exact if_pos hc

theorem words_blank_append {w : List Char} (hw : Blank w) (s : List Char) : words (w ++ s) = words s := by
  induction w with
  | nil => rfl
  | cons c w ih =>
    obtain ⟨hc, hw⟩ := List.forall_mem_cons.1 hw
    rw [List.cons_append, words_cons_of_isBlank hc, ih hw]

theorem words_blank {w : List Char} (hw : Blank w) : words w = [] := by
  have h := words_blank_append hw []
  rwa [List.append_nil] at h

theorem words_word_append {w rest : List Char} (hw : IsWord w) (hrest : ∀ c ∈ rest.head?, isBlank c = true) :
    words (w ++ rest) = w :: words rest := by
  obtain ⟨hne, hchars⟩ := hw
  induction w with
  | nil => exact absurd rfl hne
  | cons c w ih =>
    obtain ⟨hc, hchars⟩ := List.forall_mem_cons.1 hchars
    cases w with
    | nil =>
      cases rest with
      | nil => simp [words, hc]
      | cons d rest => simp [words, hc, hrest d rfl]
    | cons d w =>
      have hd : isBlank d = false := hchars d List.mem_cons_self
      have ih := ih (List.cons_ne_nil d w) hchars
      rw [List.cons_append] at ih
      rw [List.cons_append, List.cons_append, words.eq_def]
      simp only [hc, hd, ih, Bool.false_eq_true, if_false]

theorem Runs.words_eq {s : List Char} {ws : List (List Char)} (h : Runs s ws) : words s = ws := by
  induction h with
  | blank hs => exact words_blank hs
  | word hbefore hw hrest _ ih => rw [words_blank_append hbefore, words_word_append hw hrest, ih]

theorem Runs.cons_of_isBlank {c : Char} {s : List Char} {ws : List (List Char)} (hc : isBlank c = true)
    (h : Runs s ws) : Runs (c :: s) ws := by
  cases h with
  | blank hs => exact .blank (List.forall_mem_cons.2 ⟨hc, hs⟩)
  | word hbefore hw hrest h =>
    rw [← List.cons_append]
    exact .word (List.forall_mem_cons.2 ⟨hc, hbefore⟩) hw hrest h

/-- a character that is not blank makes the first word longer if it touches it, and else is a word -/
theorem Runs.exists_cons {c : Char} {s : List Char} {ws : List (List Char)} (hc : isBlank c = false)
    (h : Runs s ws) : ∃ ws', Runs (c :: s) ws' := by
  have hnone : Blank [] := List.forall_mem_nil _
  have hsingle : IsWord [c] := ⟨List.cons_ne_nil c [], fun d hd => List.mem_singleton.1 hd ▸ hc⟩
  cases h with
  | blank hs => exact ⟨_, .word hnone hsingle (fun d hd => hs d (List.mem_of_mem_head? hd)) (.blank hs)⟩
  | @word before w rest ws hbefore hw hrest h =>
    cases before with
    | nil =>
      have hlonger : IsWord (c :: w) := ⟨List.cons_ne_nil c w, List.forall_mem_cons.2 ⟨hc, hw.notBlank⟩⟩
      exact ⟨(c :: w) :: ws, .word hnone hlonger hrest h⟩
    | cons b before =>
      have hhead : ∀ d ∈ (b :: before ++ (w ++ rest)).head?, isBlank d = true := by
        intro d hd
        obtain rfl := Option.some.inj hd
        exact hbefore b List.mem_cons_self
      exact ⟨[c] :: w :: ws, .word hnone hsingle hhead (.word hbefore hw hrest h)⟩

/-- the words of a text are its maximal runs -/
theorem runs_words (s : List Char) : Runs s (words s) := by
  obtain ⟨ws, h⟩ : ∃ ws, Runs s ws := by
    induction s with
    | nil => exact ⟨[], .blank (List.forall_mem_nil _)⟩
    | cons c s ih =>
      obtain ⟨ws, h⟩ := ih
      cases hc : isBlank c with
      | true => exact ⟨ws, h.cons_of_isBlank hc⟩
      | false => exact h.exists_cons hc
  rwa [h.words_eq]

theorem runs_iff {s : List Char} {ws : List (List Char)} : Runs s ws ↔ words s = ws :=
  ⟨Runs.words_eq, fun h => h ▸ runs_words s⟩

theorem Runs.isWord {s : List Char} {ws : List (List Char)} (h : Runs s ws) : ∀ w ∈ ws, IsWord w := by
  induction h with
  | blank => exact List.forall_mem_nil _
  | word _ hw _ _ ih => exact List.forall_mem_cons.2 ⟨hw, ih⟩

/-- words on either side of a blank do not touch each other -/
theorem words_append {a b : List Char} (hb : ∀ c ∈ b.head?, isBlank c = true) :
    words (a ++ b) = words a ++ words b := by
  have h := runs_words a
  generalize words a = ws at h
  induction h with
  | blank hs => exact words_blank_append hs b
  | @word before w rest ws hbefore hw hrest _ ih =>
    have hnext : ∀ c ∈ (rest ++ b).head?, isBlank c = true := by
      cases rest with
      | nil => exact hb
      | cons d rest => exact hrest
    rw [List.append_assoc, List.append_assoc, words_blank_append hbefore, words_word_append hw hnext, ih,
      List.cons_append]

/-! ## Words joined by spaces -/

theorem words_join {ws : List (List Char)} (hws : ∀ w ∈ ws, IsWord w) : words ([' '].intercalate ws) = ws := by
  induction ws with
  | nil => rfl
  | cons w ws ih =>
    obtain ⟨hw, hws⟩ := List.forall_mem_cons.1 hws
    cases ws with
    | nil =>
      have h : words (w ++ []) = w :: words [] := words_word_append hw (by simp)
      rw [List.append_nil] at h
      rw [List.intercalate_singleton, h]
      rfl
    | cons v ws =>
      have hspace : ∀ c ∈ (' ' :: [' '].intercalate (v :: ws)).head?, isBlank c = true := by
        intro c hc
        obtain rfl := Option.some.inj hc
        decide
      rw [List.intercalate_cons_cons, List.append_assoc, List.singleton_append, words_word_append hw hspace,
        words_cons_of_isBlank (by decide), ih hws]

/-- a text on one line: no blanks at its ends, and no others in it than single spaces -/
structure OneLine (s : List Char) : Prop where
  first : ∀ c ∈ s.head?, isBlank c = false
  last : ∀ c ∈ s.getLast?, isBlank c = false
  space : ∀ c ∈ s, isBlank c = true → c = ' '
  single : s.IsChain fun c d => isBlank c = true → isBlank d = false

theorem IsWord.oneLine {w : List Char} (hw : IsWord w) : OneLine w := by
  have hchain : w.IsChain fun c d => isBlank c = true → isBlank d = false := by
    refine (List.pairwise_of_forall_mem_list ?_).isChain
    intro c _ d hd _
    exact hw.notBlank d hd
  refine ⟨?_, fun c hc => hw.notBlank c (List.mem_of_getLast? hc), ?_, hchain⟩
  · exact fun c hc => hw.notBlank c (List.mem_of_mem_head? hc)
  intro c hc hblank
  rw [hw.notBlank c hc] at hblank
  cases hblank

/-- a word and a space before a text on one line -/
theorem oneLine_word_append {w s : List Char} (hw : IsWord w) (hs : s ≠ []) :
    OneLine (w ++ ' ' :: s) ↔ OneLine s := by
  have hspace : isBlank ' ' = true := by decide
  have hlast : (w ++ ' ' :: s).getLast? = s.getLast? := by
    rw [List.getLast?_append_of_ne_nil w (List.cons_ne_nil ' ' s), List.getLast?_cons_of_ne_nil hs]
  constructor
  · rintro ⟨-, hend, hblank, hsingle⟩
    have hrest := List.isChain_cons.1 (List.isChain_append.1 hsingle).2.1
    refine ⟨fun c hc => hrest.1 c hc hspace, hlast ▸ hend, ?_, hrest.2⟩
    intro c hc
    exact hblank c (List.mem_append_right w (List.mem_cons_of_mem ' ' hc))
  · rintro ⟨hfirst, hend, hblank, hsingle⟩
    refine ⟨?_, hlast ▸ hend, ?_, ?_⟩
    · rw [List.head?_append_of_ne_nil w hw.nonempty]
      exact hw.oneLine.first
    · intro c hc hc'
      rcases List.mem_append.1 hc with hc | hc
      · exact hw.oneLine.space c hc hc'
      · rcases List.mem_cons.1 hc with rfl | hc
        · rfl
        · exact hblank c hc hc'
    · refine List.isChain_append.2 ⟨hw.oneLine.single, List.isChain_cons.2 ⟨fun c hc _ => hfirst c hc, hsingle⟩, ?_⟩
      intro c hc d _ hblank
      rw [hw.oneLine.last c hc] at hblank
      cases hblank

theorem oneLine_join {ws : List (List Char)} (hws : ∀ w ∈ ws, IsWord w) : OneLine ([' '].intercalate ws) := by
  induction ws with
  | nil => exact ⟨by simp, by simp, by simp, .nil⟩
  | cons w ws ih =>
    obtain ⟨hw, hws⟩ := List.forall_mem_cons.1 hws
    cases ws with
    | nil =>
      rw [List.intercalate_singleton]
      exact hw.oneLine
    | cons v ws =>
      have hne : [' '].intercalate (v :: ws) ≠ [] := by
        intro h
        have hwords := words_join hws
        rw [h] at hwords
        cases hwords
      rw [List.intercalate_cons_cons, List.append_assoc, List.singleton_append, oneLine_word_append hw hne]
      exact ih hws

/-- a text on one line is made of its words alone -/
theorem OneLine.eq_join {s : List Char} {ws : List (List Char)} (hs : OneLine s) (h : Runs s ws) :
    s = [' '].intercalate ws := by
  induction ws generalizing s with
  | nil =>
    cases h with
    | blank hblank =>
      cases s with
      | nil => rfl
      | cons c s =>
        have hc := hs.first c rfl
        rw [hblank c List.mem_cons_self] at hc
        cases hc
  | cons w ws ih =>
    cases h with
    | @word before _ rest _ hbefore hw hrest h =>
      obtain rfl : before = [] := by
        cases before with
        | nil => rfl
        | cons c before =>
          have hc := hs.first c rfl
          rw [hbefore c List.mem_cons_self] at hc
          cases hc
      rw [List.nil_append] at hs ⊢
      cases rest with
      | nil =>
        obtain rfl : ws = [] := h.words_eq.symm
        rw [List.append_nil]
        exact List.intercalate_singleton.symm
      | cons c rest =>
        obtain rfl : c = ' ' := hs.space c (by simp) (hrest c rfl)
        have hne : rest ≠ [] := by
          rintro rfl
          have hlast := hs.last ' ' (by simp)
          exact absurd hlast (by decide)
        have hline := (oneLine_word_append hw hne).1 hs
        have hwords := h.words_eq
        rw [words_cons_of_isBlank (by decide), ← runs_iff] at hwords
        rw [ih hline hwords] at hne ⊢
        obtain ⟨v, ws, rfl⟩ : ∃ v vs, ws = v :: vs := by
          cases ws with
          | nil => exact absurd rfl hne
          | cons v ws => exact ⟨v, ws, rfl⟩
        rw [List.intercalate_cons_cons, List.append_assoc, List.singleton_append]

/-! ## The text on one line -/

theorem isWord_words (s : List Char) : ∀ w ∈ words s, IsWord w := (runs_words s).isWord

theorem words_flatten (s : List Char) : words (flatten s) = words s := words_join (isWord_words s)

theorem oneLine_flatten (s : List Char) : OneLine (flatten s) := oneLine_join (isWord_words s)

theorem flatten_eq_self_iff {s : List Char} : flatten s = s ↔ OneLine s := by
  constructor
  · intro h
    rw [← h]
    exact oneLine_flatten s
  · intro h
    exact (h.eq_join (runs_words s)).symm

theorem flatten_eq_iff {s t : List Char} : flatten t = flatten s ↔ words t = words s := by
  constructor
  · intro h
    rw [← words_flatten t, h, words_flatten]
  · intro h
    rw [flatten, h, flatten]

theorem flatten_eq_nil_iff {s : List Char} : flatten s = [] ↔ words s = [] := flatten_eq_iff (s := [])

/-- texts with blanks between them are flattened apart and joined, unless one of them has no words -/
theorem flatten_append {a w b : List Char} (hne : w ≠ []) (hw : Blank w) :
    flatten (a ++ w ++ b) = [' '].intercalate ([flatten a, flatten b].filter (· ≠ [])) := by
  have hhead : ∀ c ∈ (w ++ b).head?, isBlank c = true := by
    intro c hc
    rw [List.head?_append_of_ne_nil w hne] at hc
    exact hw c (List.mem_of_mem_head? hc)
  have hwords : words (a ++ w ++ b) = words a ++ words b := by
    rw [List.append_assoc, words_append hhead, words_blank_append hw]
  have hflatten : flatten (a ++ w ++ b) = [' '].intercalate (words a ++ words b) := congrArg [' '].intercalate hwords
  rw [hflatten]
  by_cases ha : words a = []
  · have ha' : flatten a = [] := flatten_eq_nil_iff.2 ha
    rw [ha, ha', List.filter_cons_of_neg (by simp), List.nil_append]
    by_cases hb : words b = []
    · have hb' : flatten b = [] := flatten_eq_nil_iff.2 hb
      rw [hb, hb', List.filter_cons_of_neg (by simp), List.filter_nil]
    · have hb' : flatten b ≠ [] := mt flatten_eq_nil_iff.1 hb
      rw [List.filter_cons_of_pos (by simpa using hb'), List.filter_nil, List.intercalate_singleton, flatten]
  · have ha' : flatten a ≠ [] := mt flatten_eq_nil_iff.1 ha
    rw [List.filter_cons_of_pos (by simpa using ha')]
    by_cases hb : words b = []
    · have hb' : flatten b = [] := flatten_eq_nil_iff.2 hb
      rw [hb, hb', List.filter_cons_of_neg (by simp), List.filter_nil, List.intercalate_singleton, List.append_nil,
        flatten]
    · have hb' : flatten b ≠ [] := mt flatten_eq_nil_iff.1 hb
      rw [List.filter_cons_of_pos (by simpa using hb'), List.filter_nil, List.intercalate_cons_cons,
        List.intercalate_singleton, intercalate_append _ ha hb, List.append_assoc, flatten, flatten]

/--
**Flattening gives the one text on one line with the same words.** The words of a text are its maximal runs of
characters that are not blank. A flattened text is on one line and has the words of the text it was made from, so
flattening it again changes nothing, and a text is left as it is exactly if it is on one line. Two texts are flattened to
the same text exactly if they have the same words. Where blanks stand in a text, what is before them and what is after
them can be flattened apart; joined by one space, the empty ones left out, this is the flattened text.
-/
theorem flatten_canonical (s : List Char) :
    (∀ ws, Runs s ws ↔ words s = ws) ∧
    OneLine (flatten s) ∧ words (flatten s) = words s ∧
    flatten (flatten s) = flatten s ∧ (flatten s = s ↔ OneLine s) ∧
    (∀ t, flatten t = flatten s ↔ words t = words s) ∧
    ∀ a w b, w ≠ [] → Blank w → s = a ++ w ++ b →
      flatten s = [' '].intercalate ([flatten a, flatten b].filter (· ≠ [])) := by
  refine ⟨fun ws => runs_iff, oneLine_flatten s, words_flatten s, flatten_eq_self_iff.2 (oneLine_flatten s),
    flatten_eq_self_iff, fun t => flatten_eq_iff, ?_⟩
  rintro a w b hne hw rfl
  exact flatten_append hne hw

/-- blanks of several kinds, at the ends, between words and around an empty line -/
theorem flatten_canonical_blankLine :
    Blank "\n\u3000\n".toList ∧ flatten "\tone\u00A0 two\n\u3000\n three ".toList = "one two three".toList := by
  have hblank : Blank "\n\u3000\n".toList := by decide
  obtain ⟨-, -, -, -, -, -, happend⟩ := flatten_canonical "\tone\u00A0 two\n\u3000\n three ".toList
  refine ⟨hblank, ?_⟩
  rw [happend "\tone\u00A0 two".toList "\n\u3000\n".toList " three ".toList (by decide) hblank rfl]
  decide

end StubTemplate.Text
