/-
What the readers of TOML give, and what they leave.

A reader takes a part off the front of a text (`Takes`): what it leaves is an end of the text, and what it gives has a
property that comes from what its parts give. Main result: `distinct_of_read?`. No table of a document that is read has
a key twice, at any depth. Step and run: a header or a field keeps the tables of a document sound (`takes_readHeader`,
`takes_readField`), and so do all lines of a text (`takes_readLines`).
-/
import Mathlib.Data.List.Infix
import StubTemplate.Proofs.Tables
import StubTemplate.Toml.Reader

namespace StubTemplate.Toml

/-! ## What is given and what is left -/

/-- what was read off the front of the text has the property, and the rest is an end of the text -/
def Taken {α : Type} (P : α → Prop) (s : List Char) (read : Option (α × List Char)) : Prop :=
  ∀ a rest, read = some (a, rest) → rest <:+ s ∧ P a

/-- all that a reader gives has the property, and what it leaves is an end of the text -/
def Takes {α : Type} (P : α → Prop) (x : Scan α) : Prop := ∀ s, Taken P s (x s)

abbrev LeavesEnd {α : Type} (x : Scan α) : Prop := Takes (fun _ => True) x

section

variable {α β : Type} {P : α → Prop} {s : List Char}

@[simp] theorem taken_none : Taken P s none := nofun

@[simp] theorem taken_some {a : α} {rest : List Char} : Taken P s (some (a, rest)) ↔ rest <:+ s ∧ P a := by
  simp [Taken]

@[simp] theorem taken_onto {c : Char} {read : Option (List Char × List Char)} :
    Taken (fun _ => True) s (onto c read) ↔ Taken (fun _ => True) s read := by
  rcases read with _ | ⟨text, rest⟩
  · simp [onto]
  · simp [onto]

@[simp] theorem taken_bind {a : Option β} {f : β → Option (α × List Char)} :
    Taken P s (a.bind f) ↔ ∀ b, a = some b → Taken P s (f b) := by
  cases a with
  | none => simp
  | some b => simp

theorem Taken.mono {read : Option (α × List Char)} {t : List Char} (h : Taken P s read) (hs : s <:+ t) :
    Taken P t read :=
  fun a rest hread => ⟨(h a rest hread).1.trans hs, (h a rest hread).2⟩

end

section

variable {α β : Type} {P : α → Prop} {Q : β → Prop} {x y : Scan α} {f : α → Scan β}

theorem takes_pure {a : α} (h : P a) : Takes P (pure a : Scan α) := fun _ => taken_some.2 ⟨List.suffix_rfl, h⟩

theorem takes_failure : Takes P (failure : Scan α) := fun _ => taken_none

theorem takes_lift {a : Option α} (h : ∀ b ∈ a, P b) : Takes P (StateT.lift a : Scan α) := by
  intro s
  cases a with
  | none => exact taken_none
  | some a => exact taken_some.2 ⟨List.suffix_rfl, h a rfl⟩

theorem leavesEnd_lift {a : Option α} : LeavesEnd (StateT.lift a : Scan α) := takes_lift fun _ _ => trivial

theorem leavesEnd_modify {g : List Char → List Char} (h : ∀ s, g s <:+ s) : LeavesEnd (modify g : Scan Unit) :=
  fun s => taken_some.2 ⟨h s, trivial⟩

theorem Takes.bind (hx : Takes P x) (hf : ∀ a, P a → Takes Q (f a)) : Takes Q (x >>= f) := by
  refine fun s => taken_bind.2 fun read hread => ?_
  obtain ⟨hrest, hgiven⟩ := hx s read.1 read.2 hread
  exact (hf read.1 hgiven read.2).mono hrest

/-- whatever the first reader gives -/
theorem Takes.seq (hx : Takes P x) (hf : ∀ a, Takes Q (f a)) : Takes Q (x >>= f) := hx.bind fun a _ => hf a

theorem Takes.ite {c : Prop} [Decidable c] (hx : Takes P x) (hy : Takes P y) : Takes P (if c then x else y) := by
  split
  · exact hx
  · exact hy

/-- a step that is only taken on a condition -/
theorem Takes.maybe {c : Prop} [Decidable c] {P : Unit → Prop} {x : Scan Unit} (hx : Takes P x) {f : Unit → Scan β}
    (hf : ∀ a, Takes Q (f a)) : Takes Q (if c then x >>= f else f ()) :=
  .ite (hx.seq hf) (hf ())

theorem Takes.imp {P' : α → Prop} (hx : Takes P x) (h : ∀ a, P a → P' a) : Takes P' x :=
  fun s a rest hread => ⟨(hx s a rest hread).1, h a (hx s a rest hread).2⟩

theorem Takes.map (hx : Takes P x) {g : α → β} (hg : ∀ a, P a → Q (g a)) : Takes Q (g <$> x) :=
  hx.bind fun a ha => takes_pure (hg a ha)

theorem Takes.discard (hx : Takes P x) : LeavesEnd (discard x) := hx.map fun _ _ => trivial

end

theorem leavesEnd_tail : LeavesEnd (modify List.tail : Scan Unit) := leavesEnd_modify List.tail_suffix

namespace Scan

theorem leavesEnd_spaces : LeavesEnd spaces := fun _ => taken_some.2 ⟨List.dropWhile_suffix _, trivial⟩

theorem leavesEnd_peek : LeavesEnd peek := fun _ => taken_some.2 ⟨List.suffix_rfl, trivial⟩

theorem leavesEnd_rest : LeavesEnd rest := fun _ => taken_some.2 ⟨List.suffix_rfl, trivial⟩

theorem leavesEnd_expect (c : Char) : LeavesEnd (expect c) := by
  intro s
  unfold expect
  split
  · split
    · exact taken_some.2 ⟨List.suffix_cons _ _, trivial⟩
    · exact taken_none
  · exact taken_none

theorem leavesEnd_optional (c : Char) : LeavesEnd (optional c) := by
  intro s
  unfold optional
  split
  · split
    · exact taken_some.2 ⟨List.suffix_cons _ _, trivial⟩
    · exact taken_some.2 ⟨List.suffix_rfl, trivial⟩
  · exact taken_some.2 ⟨List.suffix_rfl, trivial⟩

theorem leavesEnd_optionalText (text : String) : LeavesEnd (optionalText text) := by
  intro s
  unfold optionalText
  split
  · exact taken_some.2 ⟨List.drop_suffix _ _, trivial⟩
  · exact taken_some.2 ⟨List.suffix_rfl, trivial⟩

theorem leavesEnd_number (count low high : Nat) : LeavesEnd (number count low high) := by
  intro s
  unfold number
  dsimp only
  split
  · exact taken_some.2 ⟨List.drop_suffix _ _, trivial⟩
  · exact taken_none

end Scan

open Scan

/-! ## Strings -/

theorem leavesEnd_basicString : LeavesEnd basicString := by
  intro s
  fun_induction basicString s
  all_goals simp
  all_goals
    intros
    exact Taken.mono (by assumption) (by simp [List.suffix_cons_iff])

theorem leavesEnd_basicLines (skipping : Bool) : LeavesEnd (basicLines skipping) := by
  intro s
  fun_induction basicLines skipping s
  all_goals simp -failIfUnchanged [List.suffix_cons_iff]
  all_goals
    intros
    exact Taken.mono (by assumption) (by simp [List.suffix_cons_iff])

theorem leavesEnd_literalString : LeavesEnd literalString := by
  intro s
  fun_induction literalString s
  all_goals simp
  all_goals exact Taken.mono (by assumption) (List.suffix_cons _ _)

theorem leavesEnd_literalLines : LeavesEnd literalLines := by
  intro s
  fun_induction literalLines s
  all_goals simp [List.suffix_cons_iff]
  all_goals exact Taken.mono (by assumption) (by simp [List.suffix_cons_iff])

theorem firstLineEnd_suffix (s : List Char) : firstLineEnd s <:+ s := by
  unfold firstLineEnd
  split
  · exact List.suffix_cons _ _
  · simp [List.suffix_cons_iff]
  · exact List.suffix_rfl

theorem leavesEnd_string : LeavesEnd string := by
  have hbehind : ∀ a b c rest, firstLineEnd rest <:+ a :: b :: c :: rest :=
    fun a b c rest => (firstLineEnd_suffix rest).trans (by simp [List.suffix_cons_iff])
  intro s
  unfold string
  split
  · exact (leavesEnd_basicLines _ _).mono (hbehind _ _ _ _)
  · exact (leavesEnd_basicString _).mono (List.suffix_cons _ _)
  · exact (leavesEnd_literalLines _).mono (hbehind _ _ _ _)
  · exact (leavesEnd_literalString _).mono (List.suffix_cons _ _)
  · exact taken_none

/-! ## Numbers, dates and times -/

theorem leavesEnd_moreDigits (isDigit : Char → Bool) : LeavesEnd (moreDigits isDigit) := by
  intro s
  fun_induction moreDigits isDigit s
  all_goals simp
  all_goals exact Taken.mono (by assumption) (by simp [List.suffix_cons_iff])

theorem leavesEnd_digits (isDigit : Char → Bool) : LeavesEnd (digits isDigit) := by
  intro s
  unfold digits
  split
  · exact taken_none
  · split
    · exact taken_onto.2 ((leavesEnd_moreDigits isDigit _).mono (List.suffix_cons _ _))
    · exact taken_none

theorem leavesEnd_decimalDigits : LeavesEnd decimalDigits := by
  intro s
  unfold decimalDigits
  split
  · exact taken_some.2 ⟨List.suffix_cons _ _, trivial⟩
  · exact leavesEnd_digits _ _

theorem takes_integerOf? (i : Int) : Takes IsScalar (StateT.lift (integerOf? i)) := by
  refine takes_lift fun v hv => ?_
  unfold integerOf? at hv
  split at hv
  · cases hv
    trivial
  · cases hv

theorem takes_basedInteger (base : Nat) : Takes IsScalar (basedInteger base) :=
  (leavesEnd_digits _).seq fun _ => takes_integerOf? _

theorem leavesEnd_exponent : LeavesEnd exponent := by
  refine .seq ((leavesEnd_optional 'e').seq fun _ => .ite (takes_pure trivial) (leavesEnd_optional 'E')) fun _ => ?_
  refine .ite (takes_pure trivial) ((leavesEnd_optional '-').seq fun _ => ?_)
  exact .maybe (leavesEnd_optional '+').discard fun _ => (leavesEnd_digits _).seq fun _ => takes_pure trivial

theorem takes_decimal (negative : Bool) : Takes IsScalar (decimal negative) := by
  have hfraction : LeavesEnd (some <$> digits Char.isDigit) := (leavesEnd_digits _).map fun _ _ => trivial
  have hnone : LeavesEnd (pure none : Scan (Option (List Char))) := takes_pure trivial
  refine leavesEnd_decimalDigits.seq fun _ => (leavesEnd_optional '.').seq fun _ => ?_
  refine .ite (hfraction.seq fun _ => ?_) (hnone.seq fun _ => ?_)
  all_goals
    refine leavesEnd_exponent.seq fun _ => .ite (takes_integerOf? _) ?_
    exact .maybe (P := fun _ => True) takes_failure fun _ => takes_pure trivial

theorem takes_number : Takes IsScalar Toml.number := by
  refine (leavesEnd_optionalText _).seq fun _ => .ite (takes_basedInteger 16) ?_
  refine (leavesEnd_optionalText _).seq fun _ => .ite (takes_basedInteger 8) ?_
  refine (leavesEnd_optionalText _).seq fun _ => .ite (takes_basedInteger 2) ?_
  refine (leavesEnd_optional '-').seq fun _ => .maybe (leavesEnd_optional '+').discard fun _ => ?_
  refine (leavesEnd_optionalText _).seq fun _ => .ite (takes_pure trivial) ?_
  exact (leavesEnd_optionalText _).seq fun _ => .ite (takes_pure trivial) (takes_decimal _)

theorem leavesEnd_time : LeavesEnd time := by
  refine (leavesEnd_number _ _ _).discard.seq fun _ => (leavesEnd_expect _).seq fun _ => ?_
  refine (leavesEnd_number _ _ _).discard.seq fun _ => (leavesEnd_expect _).seq fun _ => ?_
  refine (leavesEnd_number _ _ _).discard.seq fun _ => (leavesEnd_optional _).seq fun _ => ?_
  refine .ite (.discard (P := fun _ => True) fun s => ?_) (takes_pure trivial)
  split
  · exact taken_some.2 ⟨List.dropWhile_suffix _, trivial⟩
  · exact taken_none

theorem leavesEnd_offset : LeavesEnd offset := by
  refine leavesEnd_peek.seq fun _ => .ite leavesEnd_tail (.ite ?_ (takes_pure trivial))
  refine leavesEnd_tail.seq fun _ => (leavesEnd_number _ _ _).discard.seq fun _ => ?_
  exact (leavesEnd_expect _).seq fun _ => (leavesEnd_number _ _ _).discard

theorem takes_dateOrTime : Takes IsScalar dateOrTime := by
  refine leavesEnd_rest.seq fun _ => .ite (leavesEnd_time.seq fun _ => takes_pure trivial) ?_
  refine (leavesEnd_number _ _ _).seq fun _ => (leavesEnd_expect _).seq fun _ => ?_
  refine (leavesEnd_number _ _ _).seq fun _ => (leavesEnd_expect _).seq fun _ => ?_
  refine (leavesEnd_number _ _ _).discard.seq fun _ => leavesEnd_rest.seq fun _ => ?_
  refine .ite (leavesEnd_tail.seq fun _ => leavesEnd_time.seq fun _ => ?_) (takes_pure trivial)
  exact leavesEnd_offset.seq fun _ => takes_pure trivial

theorem takes_scalar : Takes IsScalar scalar := by
  refine leavesEnd_rest.seq fun _ => .ite (leavesEnd_string.seq fun _ => takes_pure trivial) ?_
  refine (leavesEnd_optionalText _).seq fun _ => .ite (takes_pure trivial) ?_
  refine (leavesEnd_optionalText _).seq fun _ => .ite (takes_pure trivial) ?_
  exact .ite takes_dateOrTime takes_number

/-! ## Keys, and what stands between values -/

theorem leavesEnd_filler : LeavesEnd filler := by
  have hskip : ∀ comment s, Taken (fun _ => True) s ((skipFiller comment s).map ((), ·)) := by
    intro comment s
    fun_induction skipFiller comment s
    all_goals simp -failIfUnchanged
    all_goals exact Taken.mono (by assumption) (by simp [List.suffix_cons_iff])
  exact hskip false

theorem leavesEnd_newline : LeavesEnd newline := by
  intro s
  unfold newline
  split
  · exact taken_some.2 ⟨List.suffix_rfl, trivial⟩
  · exact taken_some.2 ⟨List.suffix_cons _ _, trivial⟩
  · exact taken_some.2 ⟨by simp [List.suffix_cons_iff], trivial⟩
  · exact taken_none

theorem leavesEnd_lineEnd : LeavesEnd lineEnd := by
  have hcomment : LeavesEnd (modify (List.dropWhile isTextChar) : Scan Unit) :=
    leavesEnd_modify fun _ => List.dropWhile_suffix _
  exact leavesEnd_spaces.seq fun _ => (leavesEnd_optional _).seq fun _ => .maybe hcomment fun _ => leavesEnd_newline

/-- a comment or a line end takes its first character at least -/
theorem taken_lineEnd {c : Char} (hc : c = '#' ∨ c = '\n' ∨ c = '\r') (s : List Char) :
    Taken (fun _ => True) s (lineEnd (c :: s)) := by
  rcases hc with rfl | rfl | rfl
  · exact (leavesEnd_newline _).mono (List.dropWhile_suffix _)
  · exact taken_some.2 ⟨List.suffix_rfl, trivial⟩
  · change Taken _ s (newline ('\r' :: s))
    cases s with
    | nil => exact taken_none
    | cons d s =>
      by_cases hd : d = '\n'
      · rw [hd]
        exact taken_some.2 ⟨List.suffix_cons _ _, trivial⟩
      · rw [newline]
        · exact taken_none
        all_goals simp [hd]

theorem leavesEnd_keyPart : LeavesEnd keyPart := by
  have hquoted : ∀ {x : Scan (List Char)}, LeavesEnd x → ∀ c s,
      Taken (fun _ => True) (c :: s) ((x s).map fun read => (String.ofList read.1, read.2)) := by
    intro x hx c s _ _ h
    obtain ⟨⟨text, rest⟩, hread, ⟨⟩⟩ := Option.map_eq_some_iff.1 h
    exact ⟨(hx s text rest hread).1.trans (List.suffix_cons c s), trivial⟩
  intro s
  unfold keyPart
  split
  · exact hquoted leavesEnd_basicString _ _
  · exact hquoted leavesEnd_literalString _ _
  · split
    · exact taken_some.2 ⟨List.dropWhile_suffix _, trivial⟩
    · exact taken_none

theorem leavesEnd_keyParts (bound : Nat) : LeavesEnd (keyParts bound) := by
  induction bound with
  | zero => exact takes_failure
  | succ bound ih =>
    refine leavesEnd_spaces.seq fun _ => leavesEnd_keyPart.seq fun _ => leavesEnd_spaces.seq fun _ => ?_
    exact (leavesEnd_optional _).seq fun _ => .ite (ih.seq fun _ => takes_pure trivial) (takes_pure trivial)

theorem leavesEnd_key : LeavesEnd key := (leavesEnd_keyParts deepest).seq fun _ => takes_pure trivial

/-! ## Values and documents -/

theorem takes_value_items_fields (steps : Nat) : (∀ depth, Takes Distinct (value steps depth)) ∧
    (∀ depth, Takes (∀ v ∈ ·, v.Distinct) (items steps depth)) ∧
    ∀ depth before, Takes (fun now => Sound before → Sound now) (fields steps depth before) := by
  induction steps with
  | zero => exact ⟨fun _ => takes_failure, fun _ => takes_failure, fun _ _ => takes_failure⟩
  | succ steps ih =>
    obtain ⟨ihvalue, ihitems, ihfields⟩ := ih
    refine ⟨fun depth => ?_, fun depth => ?_, fun depth before => ?_⟩
    · refine leavesEnd_peek.seq fun _ => .ite ?_ (.ite ?_ (takes_scalar.imp fun _ hv => hv.distinct))
      · refine .maybe (P := fun _ => True) takes_failure fun _ => leavesEnd_tail.seq fun _ => ?_
        exact (ihitems _).bind fun _ hitems => takes_pure (distinct_array_iff.2 hitems)
      · refine .maybe (P := fun _ => True) takes_failure fun _ => leavesEnd_tail.seq fun _ => ?_
        refine leavesEnd_spaces.seq fun _ => (leavesEnd_optional _).seq fun _ => .ite ?_ ?_
        · exact takes_pure (distinct_ofItems_iff.2 sound_nil)
        · exact (ihfields _ _).bind fun _ hsound => takes_pure (distinct_ofItems_iff.2 (hsound sound_nil))
    · refine leavesEnd_filler.seq fun _ => (leavesEnd_optional _).seq fun _ => .ite (takes_pure nofun) ?_
      refine (ihvalue depth).bind fun v hv => leavesEnd_filler.seq fun _ => ?_
      refine (leavesEnd_optional _).seq fun _ => .ite ?_ ?_
      · exact (ihitems depth).bind fun _ hitems => takes_pure (List.forall_mem_cons.2 ⟨hv, hitems⟩)
      · exact (leavesEnd_expect _).seq fun _ => takes_pure (List.forall_mem_singleton.2 hv)
    · refine leavesEnd_key.seq fun _ => (leavesEnd_expect _).seq fun _ => leavesEnd_spaces.seq fun _ => ?_
      refine (ihvalue depth).bind fun v hv => leavesEnd_spaces.seq fun _ => ?_
      refine Takes.bind (P := fun now => Sound before → Sound now)
        (takes_lift fun now hnow hbefore => hbefore.defineAt hv hnow) fun now hnow => ?_
      refine (leavesEnd_optional _).seq fun _ => .ite ?_ ((leavesEnd_expect _).seq fun _ => takes_pure hnow)
      exact (ihfields depth now).imp fun _ hlast hbefore => hlast (hnow hbefore)

theorem takes_value (steps depth : Nat) : Takes Distinct (value steps depth) :=
  (takes_value_items_fields steps).1 depth

theorem takes_items (steps depth : Nat) : Takes (∀ v ∈ ·, v.Distinct) (items steps depth) :=
  (takes_value_items_fields steps).2.1 depth

theorem takes_fields (steps depth : Nat) (before : Items) :
    Takes (fun now => Sound before → Sound now) (fields steps depth before) :=
  (takes_value_items_fields steps).2.2 depth before

namespace Document

theorem takes_readHeader (doc : Document) : Takes (fun next => Sound doc.items → Sound next.items) doc.readHeader := by
  refine (leavesEnd_optional _).seq fun double => leavesEnd_key.seq fun _ => (leavesEnd_expect _).seq fun _ => ?_
  refine .maybe (leavesEnd_expect _) fun _ => leavesEnd_lineEnd.seq fun _ => ?_
  refine Takes.bind (P := fun items => Sound doc.items → Sound items) (takes_lift ?_) fun _ hitems => takes_pure hitems
  intro items h hdoc
  cases double with
  | false => exact hdoc.openTable h
  | true => exact hdoc.openElement h

theorem takes_readField (doc : Document) (steps : Nat) :
    Takes (fun next => Sound doc.items → Sound next.items) (doc.readField steps) := by
  refine leavesEnd_key.seq fun _ => (leavesEnd_expect _).seq fun _ => leavesEnd_spaces.seq fun _ => ?_
  refine (takes_value steps deepest).bind fun v hv => leavesEnd_lineEnd.seq fun _ => ?_
  refine Takes.bind (P := fun items => Sound doc.items → Sound items) (takes_lift ?_) fun _ hitems => takes_pure hitems
  exact fun items h hdoc => hdoc.within (fun _ _ hinner h => hinner.defineAt hv h) h

theorem takes_readLines (doc : Document) (steps : Nat) :
    Takes (fun last => Sound doc.items → Sound last.items) (doc.readLines steps) := by
  induction steps generalizing doc with
  | zero => exact takes_failure
  | succ steps ih =>
    rw [readLines]
    refine leavesEnd_spaces.seq fun _ => leavesEnd_peek.seq fun next => ?_
    cases next with
    | none => exact takes_pure id
    | some c =>
      refine .ite (leavesEnd_lineEnd.seq fun _ => ih doc) ((leavesEnd_optional _).seq fun _ => .ite ?_ ?_)
      · exact (takes_readHeader doc).bind fun next hnext => (ih next).imp fun _ hlast hdoc => hlast (hnext hdoc)
      · exact (takes_readField doc _).bind fun next hnext => (ih next).imp fun _ hlast hdoc => hlast (hnext hdoc)

end Document

/-- **No table of a document has a key twice.** -/
theorem distinct_of_read? {s : List Char} {fields : List (String × Toml)} (h : read? s = some fields) :
    Distinct (.table fields) := by
  obtain ⟨⟨doc, rest⟩, hread, rfl⟩ := Option.map_eq_some_iff.1 h
  exact distinct_ofItems_iff.2 ((Document.takes_readLines _ _ _ doc rest hread).2 sound_nil)

end StubTemplate.Toml
