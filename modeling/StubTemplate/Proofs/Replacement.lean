/-
What replacement leaves alone, and what it puts in.

`replaceAll` passes over a text at whose places the pattern does not start (`replaceAll_append`). A text that no
occurrence of the pattern meets is still there afterwards (`infix_replaceAll`), and where the pattern occurs, what
replaces it is (`filler_infix_replaceAll`). What a text becomes piece by piece, where no occurrence reaches from one
piece into the next, is put together by `Becomes`.
-/
import StubTemplate.Text.Replace

namespace StubTemplate.Text

variable {pattern filler : List Char}

theorem replaceAll_pattern_append (h : pattern ≠ []) (s : List Char) :
    replaceAll pattern filler (pattern ++ s) = filler ++ replaceAll pattern filler s := by
  obtain ⟨c, rest, rfl⟩ := List.exists_cons_of_ne_nil h
  rw [List.cons_append, replaceAll, if_pos ⟨h, _, rfl⟩, ← List.cons_append, List.drop_left]

theorem replaceAll_cons {c : Char} {s : List Char} (h : ¬ pattern <+: c :: s) :
    replaceAll pattern filler (c :: s) = c :: replaceAll pattern filler s := by
  rw [replaceAll, if_neg fun hand => h hand.2]

/-- a text stays as it is where the pattern starts at none of its places -/
theorem replaceAll_append {s : List Char} (t : List Char)
    (h : ∀ x z, s = x ++ z → z ≠ [] → ¬ pattern <+: z ++ t) :
    replaceAll pattern filler (s ++ t) = s ++ replaceAll pattern filler t := by
  induction s with
  | nil => rfl
  | cons c s ih =>
    have hrest := ih fun x z hs hz => h (c :: x) z (by rw [hs, List.cons_append]) hz
    have hfirst := h [] (c :: s) rfl (List.cons_ne_nil c s)
    rw [List.cons_append] at hfirst ⊢
    rw [replaceAll_cons hfirst, hrest, List.cons_append]

/-- no occurrence of the pattern meets the text between `before` and `after` -/
def Clear (pattern before text after : List Char) : Prop :=
  ∀ x y, before ++ text ++ after = x ++ pattern ++ y →
    x.length + pattern.length ≤ before.length ∨ before.length + text.length ≤ x.length

theorem Clear.of_append {u before text after : List Char} (h : Clear pattern (u ++ before) text after) :
    Clear pattern before text after := by
  intro x y hxy
  have hmeet := h (u ++ x) y (by simp only [List.append_assoc] at hxy ⊢; rw [hxy])
  simp only [List.length_append] at hmeet
  omega

/-- an occurrence that meets the text starts inside of it, or before it and ends inside of it or after it -/
theorem exists_of_not_clear {before text after : List Char} (h : ¬ Clear pattern before text after) :
    (∃ x z y, z ≠ [] ∧ text = x ++ z ∧ z ++ after = pattern ++ y) ∨
      ∃ u x z y, z ≠ [] ∧ before = u ++ x ∧ pattern = x ++ z ∧ text ++ after = z ++ y := by
  simp only [Clear, Classical.not_forall, not_or, Nat.not_le] at h
  obtain ⟨u, y, heq, hends, hstarts⟩ := h
  rw [List.append_assoc, List.append_assoc, List.append_eq_append_iff] at heq
  rcases heq with ⟨x, hu, hrest⟩ | ⟨x, hbefore, hrest⟩
  · rw [hu, List.length_append] at hstarts
    rcases List.append_eq_append_iff.1 hrest with ⟨w, hx, -⟩ | ⟨z, htext, hz⟩
    · rw [hx, List.length_append] at hstarts
      omega
    · refine .inl ⟨x, z, y, ?_, htext, hz.symm⟩
      rintro rfl
      rw [htext, List.append_nil] at hstarts
      omega
  · rw [hbefore, List.length_append] at hends
    rcases List.append_eq_append_iff.1 hrest with ⟨w, hx, -⟩ | ⟨z, hpattern, hz⟩
    · rw [hx, List.length_append] at hends
      omega
    · refine .inr ⟨u, x, z, y, ?_, hbefore, hpattern, hz⟩
      rintro rfl
      rw [hpattern, List.append_nil] at hends
      omega

/-- a text that no occurrence of the pattern meets is there after the replacement -/
theorem infix_replaceAll (hpattern : pattern ≠ []) {before text after : List Char}
    (h : Clear pattern before text after) : text <:+: replaceAll pattern filler (before ++ text ++ after) := by
  have hpos := List.length_pos_iff.2 hpattern
  induction hn : before.length using Nat.strongRecOn generalizing before with
  | _ n ih =>
    cases before with
    | nil =>
      have hpass : ∀ x z, text = x ++ z → z ≠ [] → ¬ pattern <+: z ++ after := by
        rintro x z htext hz ⟨y, hy⟩
        have hzpos := List.length_pos_iff.2 hz
        have hmeet := h x y (by rw [htext, List.nil_append, List.append_assoc, ← hy, List.append_assoc])
        simp only [htext, List.length_nil, List.length_append] at hmeet
        omega
      rw [List.nil_append, replaceAll_append after hpass]
      exact List.infix_append_left
    | cons c before =>
      by_cases hstart : pattern <+: c :: before ++ text ++ after
      · -- the occurrence ends before the text, and the rest of `before` is shorter
        obtain ⟨y, hy⟩ := hstart
        have hshort : pattern.length ≤ (c :: before).length := by
          have hmeet := h [] y hy.symm
          simp only [List.length_nil, List.length_cons] at hmeet ⊢
          omega
        have hprefix : c :: before <+: c :: before ++ text ++ after := by
          rw [List.append_assoc]
          exact List.prefix_append _ _
        obtain ⟨rest, hrest⟩ := List.prefix_of_prefix_length_le ⟨y, hy⟩ hprefix hshort
        rw [← hrest] at h hn ⊢
        have hkeep := ih rest.length (by rw [← hn, List.length_append]; omega) h.of_append rfl
        rw [List.append_assoc, List.append_assoc, replaceAll_pattern_append hpattern, ← List.append_assoc]
        exact List.infix_append_of_infix_right hkeep
      · have hkeep := ih before.length (by rw [← hn]; exact Nat.lt_succ_self _) (h.of_append (u := [c])) rfl
        rw [List.cons_append, List.cons_append] at hstart ⊢
        rw [replaceAll_cons hstart]
        exact List.infix_cons hkeep

/-- where the pattern occurs, what replaces it is put in -/
theorem filler_infix_replaceAll (hpattern : pattern ≠ []) {s : List Char} (h : pattern <:+: s) :
    filler <:+: replaceAll pattern filler s := by
  fun_induction replaceAll pattern filler s with
  | case1 => exact absurd (List.infix_nil.1 h) hpattern
  | case2 c rest hhit ih => exact List.infix_append_left
  | case3 c rest hmiss ih =>
    rcases List.infix_cons_iff.1 h with h | h
    · exact absurd ⟨hpattern, h⟩ hmiss
    · exact List.infix_cons (ih h)

/-! ## Piece by piece -/

/-- replacement makes `s'` of `s`, whatever stands behind it -/
def Becomes (pattern filler s s' : List Char) : Prop :=
  ∀ t, replaceAll pattern filler (s ++ t) = s' ++ replaceAll pattern filler t

namespace Becomes

variable {s s' t t' : List Char}

theorem nil : Becomes pattern filler [] [] := fun _ => rfl

theorem append (hs : Becomes pattern filler s s') (ht : Becomes pattern filler t t') :
    Becomes pattern filler (s ++ t) (s' ++ t') := by
  intro u
  rw [List.append_assoc, hs, ht, List.append_assoc]

theorem flatMap {α : Type} {f g : α → List Char} (xs : List α) (h : ∀ x ∈ xs, Becomes pattern filler (f x) (g x)) :
    Becomes pattern filler (xs.flatMap f) (xs.flatMap g) := by
  induction xs with
  | nil => exact nil
  | cons x xs ih =>
    obtain ⟨hx, hxs⟩ := List.forall_mem_cons.1 h
    rw [List.flatMap_cons, List.flatMap_cons]
    exact hx.append (ih hxs)

theorem intercalate {α : Type} {f g : α → List Char} {separator : List Char}
    (hseparator : Becomes pattern filler separator separator) (xs : List α)
    (h : ∀ x, Becomes pattern filler (f x) (g x)) :
    Becomes pattern filler (separator.intercalate (xs.map f)) (separator.intercalate (xs.map g)) := by
  induction xs with
  | nil => exact nil
  | cons x xs ih =>
    cases xs with
    | nil => simpa using h x
    | cons y ys =>
      simp only [List.map_cons, List.intercalate_cons_cons] at ih ⊢
      exact ((h x).append hseparator).append ih

theorem hit (h : pattern ≠ []) : Becomes pattern filler pattern filler := replaceAll_pattern_append h

/-- a character that the pattern does not start with stays -/
theorem of_ne {c d : Char} (h : d ≠ c) : Becomes (c :: pattern) filler [d] [d] := by
  intro t
  refine replaceAll_cons ?_
  rintro ⟨y, hy⟩
  exact h (List.cons.inj hy).1.symm

theorem eq (h : Becomes pattern filler s s') : replaceAll pattern filler s = s' := by
  have hend := h []
  rwa [List.append_nil, replaceAll, List.append_nil] at hend

end Becomes

end StubTemplate.Text
