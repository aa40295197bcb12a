/-
Filling by replacement against filling by position.

`inject` replaces texts, one placeholder after the other, wherever they occur. Positional substitution (`splice`) puts
each output in the place of one placeholder of the template, by offset and length. Main result: `inject_separated`.
The two agree on a template that is `Separated`: what follows a placeholder in it, or a `%` outside of placeholders, is
neither a `%` nor the start of a name.

The invariant is `Apart`, on templates whose placeholders are partly filled: after a placeholder and after a `%` the
template ends or goes on with a character that neither opens a placeholder nor starts a name. Replacing a placeholder
in such a template fills exactly the places that hold it (`replaceAll_text`).
-/
import StubTemplate.Injection
import StubTemplate.Proofs.Grammar
import StubTemplate.Proofs.Replacement

namespace StubTemplate

open Text

/-! ## The texts on the way -/

namespace Registry

/-- what a placeholder gives, nothing if it fails -/
def output (r : Registry) (files : Files) (base : String) (p : Placeholder) : List Char :=
  match r.resolve files base p with
  | .ok text => text.toList
  | .error _ => []

theorem resolve_eq_ok {r : Registry} {files : Files} {base : String} {p : Placeholder}
    (h : (r.resolve files base p).isOk = true) :
    r.resolve files base p = .ok (String.ofList (r.output files base p)) := by
  unfold output
  cases hresolve : r.resolve files base p with
  | error e =>
    rw [hresolve] at h
    cases h
  | ok text => rw [String.ofList_toList]

end Registry

namespace Injection

/-- the text after the placeholders of a list, each replaced by its output -/
def filled (output : Placeholder → List Char) (placeholders : List Placeholder) (text : List Char) : List Char :=
  placeholders.foldl (fun text p => replaceAll p.text (output p) text) text

theorem filled_cons (output : Placeholder → List Char) (p : Placeholder) (rest : List Placeholder) (text : List Char) :
    filled output (p :: rest) text = filled output rest (replaceAll p.text (output p) text) := rfl

theorem filled_append (output : Placeholder → List Char) (done rest : List Placeholder) (text : List Char) :
    filled output (done ++ rest) text = filled output rest (filled output done text) := List.foldl_append

variable {resolve : Placeholder → Except Error String} {output : Placeholder → List Char}

/-- where every placeholder resolves, all of them are replaced -/
theorem result_fillEach {placeholders : List Placeholder}
    (h : ∀ p ∈ placeholders, resolve p = .ok (String.ofList (output p))) (text : List Char) :
    (fillEach resolve placeholders text).result = .ok (String.ofList (filled output placeholders text)) := by
  induction placeholders generalizing text with
  | nil => rfl
  | cons p rest ih =>
    have htail : ∀ q ∈ rest, resolve q = .ok (String.ofList (output q)) := by
      intro q hq
      exact h q (List.mem_cons_of_mem p hq)
    have hrest := ih htail (replaceAll p.text (output p) text)
    rw [fillEach, h p List.mem_cons_self]
    simp only [String.toList_ofList]
    exact hrest

end Injection

/-! ## Templates whose placeholders stand apart -/

namespace Segment

/-- the part, or a text in its place if it is the placeholder -/
def put (p : Placeholder) (filler : List Char) : Segment → Template
  | .char c => [.char c]
  | .hole q => if q = p then filler.map .char else [.hole q]

theorem put_hole_self (p : Placeholder) (filler : List Char) : put p filler (.hole p) = filler.map .char := if_pos rfl

theorem put_hole_of_ne {p q : Placeholder} (h : q ≠ p) (filler : List Char) : put p filler (.hole q) = [.hole q] :=
  if_neg h

end Segment

namespace Template

/-- neither a `%` nor the start of a name -/
def Bare (s : List Char) : Prop := ∀ c ∈ s.head?, c ≠ '%' ∧ Placeholder.isNameStart c = false

/-- byte `n` is outside of the placeholders, or it is the last one of one of them -/
def Free (located : List (Placeholder × Nat)) (n : Nat) : Prop :=
  ∀ f ∈ located, n < f.2 ∨ f.2 + utf8Size f.1.text ≤ n + 1

/--
Each `%` of a text that closes a placeholder found in it or stands outside all of them is followed by the end or by a
character that is neither a `%` nor the start of a name.
-/
def Separated (s : List Char) : Prop :=
  ∀ x y, s = x ++ '%' :: y → Free (ofText s).located (utf8Size x) → Bare y

instance (s : List Char) : Decidable (Bare s) := Option.decidableForallMem _

instance (located : List (Placeholder × Nat)) (n : Nat) : Decidable (Free located n) := List.decidableBAll _ _

theorem separated_iff {s : List Char} :
    Separated s ↔ ∀ n < s.length, s[n]? = some '%' → Free (ofText s).located (utf8Size (s.take n)) →
      Bare (s.drop (n + 1)) := by
  constructor
  · intro h n hn hpercent hfree
    obtain ⟨hlt, hget⟩ := List.getElem?_eq_some_iff.1 hpercent
    refine h (s.take n) (s.drop (n + 1)) ?_ hfree
    rw [← hget, ← List.drop_eq_getElem_cons hlt, List.take_append_drop]
  · rintro h x y rfl hfree
    have hn : x.length < (x ++ '%' :: y).length := by simp
    have hy := h x.length hn (by simp) (by rw [List.take_left]; exact hfree)
    rw [← List.drop_drop, List.drop_left] at hy
    exact hy

instance (s : List Char) : Decidable (Separated s) := decidable_of_iff _ separated_iff.symm

/-- the template ends or goes on with a character that neither opens a placeholder nor starts a name -/
def StartsBare : Template → Prop
  | [] => True
  | .char c :: _ => c ≠ '%' ∧ Placeholder.isNameStart c = false
  | .hole _ :: _ => False

/-- nothing that could be taken for a part of it follows a placeholder or a `%` -/
def Apart : Template → Prop
  | [] => True
  | .char c :: rest => (c = '%' → StartsBare rest) ∧ Apart rest
  | .hole p :: rest => p.WellFormed ∧ StartsBare rest ∧ Apart rest

/-- the template with a text in the places of one placeholder -/
def put (p : Placeholder) (filler : List Char) (t : Template) : Template := t.flatMap (Segment.put p filler)

@[simp] theorem text_char (c : Char) (t : Template) : text (.char c :: t) = c :: text t := rfl

@[simp] theorem text_hole (p : Placeholder) (t : Template) : text (.hole p :: t) = p.text ++ text t := rfl

@[simp] theorem put_char (p : Placeholder) (filler : List Char) (c : Char) (t : Template) :
    put p filler (.char c :: t) = .char c :: put p filler t := rfl

theorem put_hole_self (p : Placeholder) (filler : List Char) (t : Template) :
    put p filler (.hole p :: t) = filler.map .char ++ put p filler t := by
  rw [put, List.flatMap_cons, Segment.put_hole_self, ← put]

theorem put_hole_of_ne {p q : Placeholder} (h : q ≠ p) (filler : List Char) (t : Template) :
    put p filler (.hole q :: t) = .hole q :: put p filler t := by
  rw [put, List.flatMap_cons, Segment.put_hole_of_ne h, ← put, List.singleton_append]

theorem text_map_char_append (s : List Char) (t : Template) : text (s.map .char ++ t) = s ++ text t := by
  induction s with
  | nil => rfl
  | cons c s ih => rw [List.map_cons, List.cons_append, text_char, ih, List.cons_append]

theorem StartsBare.head? {t : Template} (h : t.StartsBare) : Bare t.text := by
  cases t with
  | nil =>
    intro c hc
    cases hc
  | cons segment rest =>
    cases segment with
    | char c =>
      intro d hd
      cases hd
      exact h
    | hole p => exact h.elim

/-- no placeholder starts at a `%` before such a text -/
theorem not_prefix_of_bare {p : Placeholder} (hp : p.WellFormed) {s : List Char} (hs : Bare s) :
    ¬ p.text <+: '%' :: s := by
  obtain ⟨c, rest, hc, htext⟩ := hp.exists_text_eq
  rw [htext, List.cons_prefix_cons]
  rintro ⟨-, y, rfl⟩
  have hname := (hs c rfl).2
  rw [hc] at hname
  cases hname

/-- replacing a placeholder fills the places that hold it, and no others -/
theorem replaceAll_text {t : Template} (ht : t.Apart) {p : Placeholder} (hp : p.WellFormed) (filler : List Char) :
    replaceAll p.text filler t.text = (t.put p filler).text := by
  induction t with
  | nil => rw [text, List.flatMap_nil, replaceAll]; rfl
  | cons segment rest ih =>
    cases segment with
    | char c =>
      have hmiss : ¬ p.text <+: c :: text rest := by
        by_cases hc : c = '%'
        · rw [hc]
          exact not_prefix_of_bare hp (ht.1 hc).head?
        · rintro ⟨y, hy⟩
          exact hc (List.cons.inj hy).1.symm
      rw [text_char, replaceAll_cons hmiss, ih ht.2, put_char, text_char]
    | hole q =>
      obtain ⟨hq, hbare, hrest⟩ := ht
      by_cases hqp : q = p
      · subst hqp
        rw [text_hole, replaceAll_pattern_append q.text_ne_nil, ih hrest, put_hole_self, text_map_char_append]
      · have hmiss : ∀ x z, q.text = x ++ z → z ≠ [] → ¬ p.text <+: z ++ text rest := by
          rintro x z hx hz ⟨y, hy⟩
          rcases hq.overlap hp hx hy with rfl | rfl | rfl
          · rw [List.nil_append] at hx
            rw [← hx] at hy
            exact hqp (hp.eq_of_append_eq hq hy).1.symm
          · exact hz rfl
          · exact not_prefix_of_bare hp hbare.head? ⟨y, hy⟩
        rw [text_hole, replaceAll_append _ hmiss, ih hrest, put_hole_of_ne hqp, text_hole]

/-! ## All placeholders, one after the other -/

theorem StartsBare.put {t : Template} (h : t.StartsBare) (p : Placeholder) (filler : List Char) :
    (t.put p filler).StartsBare := by
  cases t with
  | nil => trivial
  | cons segment rest =>
    cases segment with
    | char c => exact h
    | hole q => exact h.elim

theorem Apart.map_char_append {s : List Char} (hs : '%' ∉ s) {t : Template} (ht : t.Apart) :
    Apart (s.map .char ++ t) := by
  induction s with
  | nil => exact ht
  | cons c s ih =>
    rw [List.mem_cons, not_or] at hs
    refine ⟨?_, ih hs.2⟩
    intro hc
    exact absurd hc.symm hs.1

theorem Apart.put {t : Template} (ht : t.Apart) (p : Placeholder) {filler : List Char} (hfiller : '%' ∉ filler) :
    (t.put p filler).Apart := by
  induction t with
  | nil => trivial
  | cons segment rest ih =>
    cases segment with
    | char c =>
      refine ⟨?_, ih ht.2⟩
      intro hc
      exact (ht.1 hc).put p filler
    | hole q =>
      obtain ⟨hq, hbare, hrest⟩ := ht
      by_cases hqp : q = p
      · subst hqp
        rw [put_hole_self]
        exact (ih hrest).map_char_append hfiller
      · rw [put_hole_of_ne hqp]
        exact ⟨hq, hbare.put p filler, ih hrest⟩

theorem fill_map_char (filler : Placeholder → List Char) (s : List Char) : fill filler (s.map .char) = s := by
  induction s with
  | nil => rfl
  | cons c s ih =>
    rw [List.map_cons, fill, List.flatMap_cons, ← fill, ih]
    rfl

theorem fill_append (filler : Placeholder → List Char) (t u : Template) :
    fill filler (t ++ u) = fill filler t ++ fill filler u := List.flatMap_append

theorem fill_put (filler : Placeholder → List Char) (p : Placeholder) (t : Template) :
    fill filler (t.put p (filler p)) = fill filler t := by
  induction t with
  | nil => rfl
  | cons segment rest ih =>
    cases segment with
    | char c => exact congrArg (c :: ·) ih
    | hole q =>
      by_cases hqp : q = p
      · subst hqp
        rw [put_hole_self, fill_append, fill_map_char, ih]
        rfl
      · rw [put_hole_of_ne hqp]
        exact congrArg (filler q ++ ·) ih

theorem mem_placeholders_iff {p : Placeholder} {t : Template} : p ∈ t.placeholders ↔ Segment.hole p ∈ t := by
  rw [placeholders, List.mem_filterMap]
  constructor
  · rintro ⟨segment, hmem, hp⟩
    cases segment with
    | char c => cases hp
    | hole q =>
      cases hp
      exact hmem
  · intro h
    exact ⟨.hole p, h, rfl⟩

/-- the places of a placeholder are filled, and no new ones come up -/
theorem mem_of_mem_put {p q : Placeholder} {filler : List Char} {t : Template}
    (h : Segment.hole q ∈ t.put p filler) : Segment.hole q ∈ t ∧ q ≠ p := by
  obtain ⟨segment, hmem, hq⟩ := List.mem_flatMap.1 h
  cases segment with
  | char c => cases List.mem_singleton.1 hq
  | hole q' =>
    by_cases hqp : q' = p
    · rw [hqp, Segment.put_hole_self] at hq
      obtain ⟨c, -, hc⟩ := List.mem_map.1 hq
      cases hc
    · rw [Segment.put_hole_of_ne hqp, List.mem_singleton] at hq
      cases hq
      exact ⟨hmem, hqp⟩

theorem fill_eq_text {t : Template} (h : ∀ p, Segment.hole p ∉ t) (filler : Placeholder → List Char) :
    fill filler t = t.text := by
  induction t with
  | nil => rfl
  | cons segment rest ih =>
    have hrest : fill filler rest = text rest := by
      apply ih
      intro p hp
      exact h p (List.mem_cons_of_mem _ hp)
    cases segment with
    | char c => exact congrArg (c :: ·) hrest
    | hole p => exact absurd List.mem_cons_self (h p)

/-- placeholders that stand apart are filled by replacing one after the other -/
theorem filled_text {t : Template} (ht : t.Apart) {output : Placeholder → List Char} {ps : List Placeholder}
    (hps : ∀ p ∈ ps, p.WellFormed ∧ '%' ∉ output p) (hall : ∀ p, Segment.hole p ∈ t → p ∈ ps) :
    Injection.filled output ps t.text = t.fill output := by
  induction ps generalizing t with
  | nil =>
    have hnone : ∀ p, Segment.hole p ∉ t := by
      intro p hp
      exact List.not_mem_nil (hall p hp)
    exact (fill_eq_text hnone output).symm
  | cons p ps ih =>
    obtain ⟨hp, houtput⟩ := hps p List.mem_cons_self
    have hall' : ∀ q, Segment.hole q ∈ t.put p (output p) → q ∈ ps := by
      intro q hq
      obtain ⟨hmem, hne⟩ := mem_of_mem_put hq
      exact (List.mem_cons.1 (hall q hmem)).resolve_left hne
    have hps' : ∀ q ∈ ps, q.WellFormed ∧ '%' ∉ output q := by
      intro q hq
      exact hps q (List.mem_cons_of_mem p hq)
    have hrest := ih (ht.put p houtput) hps' hall'
    rw [Injection.filled_cons, replaceAll_text ht hp, hrest, fill_put]

theorem startsBare_ofText {s : List Char} (h : Bare s) : (ofText s).StartsBare := by
  fun_cases ofText s with
  | case1 => trivial
  | case2 c rest p after hread =>
    obtain ⟨-, htext⟩ := Placeholder.read?_eq_some_iff.1 hread
    have hc : c = '%' := (List.cons.inj htext).1
    exact absurd hc (h c rfl).1
  | case3 c rest hread => exact h c rfl

theorem free_of_lt {t : Template} {offset n : Nat} (h : n < offset) : Free (t.locatedFrom offset) n := by
  intro f hf
  left
  exact Nat.lt_of_lt_of_le h (le_of_mem_locatedFrom hf)

theorem free_cons {p : Placeholder} {offset n : Nat} {located : List (Placeholder × Nat)}
    (hp : offset + utf8Size p.text ≤ n + 1) (h : Free located n) : Free ((p, offset) :: located) n :=
  List.forall_mem_cons.2 ⟨.inr hp, h⟩

/--
The parts of a separated text stand apart. The text stands at `offset` in a larger one, so that the induction can
take a part off its front.
-/
theorem apart_ofText {s : List Char} {offset : Nat}
    (h : ∀ x y, s = x ++ '%' :: y → Free ((ofText s).locatedFrom offset) (offset + utf8Size x) → Bare y) :
    (ofText s).Apart := by
  fun_induction ofText s generalizing offset with
  | case1 => trivial
  | case2 c rest p after hread ih =>
    obtain ⟨hp, htext⟩ := Placeholder.read?_eq_some_iff.1 hread
    refine ⟨hp, startsBare_ofText ?_, @ih (offset + utf8Size p.text) ?_⟩
    · -- the closing `%` is free
      have hsize := congrArg utf8Size p.text_eq_concat
      have hpercent : utf8Size ['%'] = 1 := by decide
      rw [utf8Size_append, hpercent] at hsize
      refine h ('%' :: p.name ++ '(' :: p.arguments ++ [')']) after ?_ (free_cons (by omega) (free_of_lt (by omega)))
      rw [htext, p.text_eq_concat, List.append_assoc, List.singleton_append]
    · intro x y hxy hfree
      refine h (p.text ++ x) y (by rw [htext, hxy, List.append_assoc]) ?_
      rw [utf8Size_append, ← Nat.add_assoc]
      exact free_cons (by omega) hfree
  | case3 c rest hread ih =>
    refine ⟨?_, @ih (offset + c.utf8Size) ?_⟩
    · intro hc
      apply startsBare_ofText
      have hfree : Free ((ofText rest).locatedFrom (offset + c.utf8Size)) offset :=
        free_of_lt (Nat.lt_add_of_pos_right c.utf8Size_pos)
      exact h [] rest (by rw [hc, List.nil_append]) hfree
    · intro x y hxy hfree
      refine h (c :: x) y (by rw [hxy, List.cons_append]) ?_
      rw [utf8Size_cons, ← Nat.add_assoc]
      exact hfree

theorem Separated.apart {s : List Char} (h : Separated s) : (ofText s).Apart := by
  apply @apart_ofText s 0
  intro x y hxy hfree
  rw [Nat.zero_add] at hfree
  exact h x y hxy hfree

/-! ## Substitution by offset and length -/

/-- a piece of a text to be replaced: where it starts, how long it is, and what comes in its place -/
structure Edit where
  offset : Nat
  length : Nat
  filler : List UInt8

/-- the bytes of a text from `start` on, with pieces of it replaced -/
def splice (bytes : List UInt8) (start : Nat) : List Edit → List UInt8
  | [] => bytes.drop start
  | e :: edits => (bytes.drop start).take (e.offset - start) ++ e.filler ++ splice bytes (e.offset + e.length) edits

/-- each placeholder found in a text, to be replaced by its output -/
def edits (output : Placeholder → List Char) (located : List (Placeholder × Nat)) : List Edit :=
  located.map fun f => ⟨f.2, utf8Size f.1.text, utf8 (output f.1)⟩

theorem splice_locatedFrom (output : Placeholder → List Char) {t : Template} {bytes : List UInt8} {start offset : Nat}
    (hstart : start ≤ offset) (ht : bytes.drop offset = utf8 (text t)) :
    splice bytes start (edits output (t.locatedFrom offset))
      = (bytes.drop start).take (offset - start) ++ utf8 (t.fill output) := by
  induction t generalizing start offset with
  | nil =>
    have hend : bytes.length - start ≤ offset - start := Nat.sub_le_sub_right (List.drop_eq_nil_iff.1 ht) start
    rw [List.take_of_length_le (by rw [List.length_drop]; exact hend)]
    exact (List.append_nil _).symm
  | cons segment rest ih =>
    cases segment with
    | char c =>
      have hsplit : bytes.drop offset = String.utf8EncodeChar c ++ utf8 (text rest) := by
        rw [ht, text_char, utf8_cons]
      have hnext : bytes.drop (offset + c.utf8Size) = utf8 (text rest) := by
        rw [← List.drop_drop, hsplit, ← String.length_utf8EncodeChar, List.drop_left]
      have hjoin : (bytes.drop start).take (offset + c.utf8Size - start)
          = (bytes.drop start).take (offset - start) ++ String.utf8EncodeChar c := by
        rw [Nat.sub_add_comm hstart, List.take_add, List.drop_drop, Nat.add_sub_cancel' hstart, hsplit,
          ← String.length_utf8EncodeChar, List.take_left]
      rw [locatedFrom, ih (Nat.le_add_right_of_le hstart) hnext, hjoin, List.append_assoc, ← utf8_cons]
      rfl
    | hole p =>
      have hnext : bytes.drop (offset + utf8Size p.text) = utf8 (text rest) := by
        rw [← List.drop_drop, ht, text_hole, utf8_append, ← length_utf8, List.drop_left]
      have hrest := ih (Nat.le_refl _) hnext
      rw [Nat.sub_self, List.take_zero, List.nil_append] at hrest
      rw [locatedFrom, edits, List.map_cons, splice, ← edits, hrest, List.append_assoc, ← utf8_append]
      rfl

/-- substitution by offset and length fills every placeholder -/
theorem splice_located (output : Placeholder → List Char) (s : List Char) :
    splice (utf8 s) 0 (edits output (ofText s).located) = utf8 ((ofText s).fill output) := by
  have htext : (utf8 s).drop 0 = utf8 (text (ofText s)) := by rw [text_ofText, List.drop_zero]
  exact splice_locatedFrom output (Nat.le_refl 0) htext

end Template

namespace Registry

open Template

/--
**On a separated template, filling by replacement is substitution by position.** When every placeholder found resolves
and no output has a `%`, `inject` gives the template with each placeholder, at its offset and of its length, replaced
by its own output.
-/
theorem inject_separated (r : Registry) (files : Files) (base template : String)
    (hresolve : ∀ p ∈ (ofText template.toList).placeholders, (r.resolve files base p).isOk = true)
    (houtput : ∀ p ∈ (ofText template.toList).placeholders, '%' ∉ r.output files base p)
    (hseparated : Separated template.toList) :
    ∃ text, (r.inject files base template).result = .ok text ∧
      utf8 text.toList = splice (utf8 template.toList) 0
        (edits (r.output files base) (ofText template.toList).located) := by
  refine ⟨String.ofList ((ofText template.toList).fill (r.output files base)), ?_, ?_⟩
  · have hps : ∀ p ∈ (ofText template.toList).placeholders.eraseDups, p.WellFormed ∧ '%' ∉ r.output files base p := by
      intro p hp
      have hmem := List.mem_eraseDups.1 hp
      exact ⟨(wellFormed_of_mem_placeholders hmem).1, houtput p hmem⟩
    have hall : ∀ p, Segment.hole p ∈ ofText template.toList → p ∈ (ofText template.toList).placeholders.eraseDups := by
      intro p hp
      exact List.mem_eraseDups.2 (mem_placeholders_iff.2 hp)
    have hfilled := filled_text hseparated.apart hps hall
    rw [text_ofText] at hfilled
    rw [← hfilled]
    apply Injection.result_fillEach
    intro p hp
    apply resolve_eq_ok
    exact hresolve p (List.mem_eraseDups.1 hp)
  · rw [String.toList_ofList, splice_located]

/-- two processors, each with one output -/
def twoMarks : Registry where
  processors := [⟨"left", fun _ _ _ => .ok "L"⟩, ⟨"right", fun _ _ _ => .ok "R"⟩]
  valid := by decide
  distinct := by decide

def noFiles : Files := fun _ => .missing

def offer : String := "50 % of %left()%, %right(%)%; %left()%"

theorem inject_separated_offer :
    ∃ text, (twoMarks.inject noFiles "" offer).result = .ok text ∧
      utf8 text.toList = splice (utf8 offer.toList) 0
        (edits (twoMarks.output noFiles "") (ofText offer.toList).located) :=
  inject_separated twoMarks noFiles "" offer (by decide +kernel) (by decide +kernel) (by decide +kernel)

end Registry

end StubTemplate
