/-
Lists, and steps that can fail: facts that hold of any of them.

`nodup_eraseDups` and `eraseDups_map` are about a list without repetitions, `intercalate_append` about pieces joined by
a separator, `span_append` about the longest part of a list with a property. `foldlM_eq_error_iff` says which step makes
a sequence of steps fail.
-/
import Mathlib.Data.List.Basic

namespace StubTemplate

/-! ## Lists -/

theorem nodup_eraseDups {α : Type} [BEq α] [LawfulBEq α] (l : List α) : l.eraseDups.Nodup := by
  induction hn : l.length using Nat.strongRecOn generalizing l with
  | _ n ih =>
    cases l with
    | nil => exact .nil
    | cons a l =>
      rw [List.eraseDups_cons, List.nodup_cons, List.mem_eraseDups, List.mem_filter]
      refine ⟨by simp, ih _ ?_ _ rfl⟩
      rw [← hn]
      exact Nat.lt_succ_of_le (List.length_filter_le _ _)

/-- without repetitions first or last: a function that takes no two elements to one makes no difference -/
theorem eraseDups_map {α β : Type} [BEq α] [LawfulBEq α] [BEq β] [LawfulBEq β] {f : α → β} {l : List α}
    (h : ∀ a ∈ l, ∀ b ∈ l, f a = f b → a = b) : (l.map f).eraseDups = l.eraseDups.map f := by
  induction hn : l.length using Nat.strongRecOn generalizing l with
  | _ n ih =>
    cases l with
    | nil => rfl
    | cons a l =>
      have hfilter : (l.map f).filter (fun b => !b == f a) = (l.filter fun b => !b == a).map f := by
        rw [List.filter_map]
        refine congrArg _ (List.filter_congr ?_)
        intro b hb
        have hiff : f b = f a ↔ b = a :=
          ⟨h b (List.mem_cons_of_mem a hb) a List.mem_cons_self, congrArg f⟩
        rw [Function.comp_apply, Bool.eq_iff_iff, Bool.not_eq_true', Bool.not_eq_true', beq_eq_false_iff_ne,
          beq_eq_false_iff_ne, Ne, Ne, hiff]
      have hrest : ∀ b ∈ l.filter (fun b => !b == a), ∀ c ∈ l.filter (fun b => !b == a), f b = f c → b = c := by
        intro b hb c hc
        exact h b (List.mem_cons_of_mem a (List.mem_filter.1 hb).1) c (List.mem_cons_of_mem a (List.mem_filter.1 hc).1)
      have hless : (l.filter fun b => !b == a).length < n := by
        rw [← hn]
        exact Nat.lt_succ_of_le (List.length_filter_le _ _)
      rw [List.map_cons, List.eraseDups_cons, List.eraseDups_cons, List.map_cons, hfilter, ih _ hless hrest rfl]

theorem intercalate_append {α : Type} (separator : List α) {x y : List (List α)} (hx : x ≠ []) (hy : y ≠ []) :
    separator.intercalate (x ++ y) = separator.intercalate x ++ (separator ++ separator.intercalate y) := by
  induction x with
  | nil => exact absurd rfl hx
  | cons piece x ih =>
    cases x with
    | nil =>
      obtain ⟨next, y, rfl⟩ := List.exists_cons_of_ne_nil hy
      simp [List.intercalate_cons_cons]
    | cons next x =>
      have hrest := ih (List.cons_ne_nil next x)
      simp only [List.cons_append, List.intercalate_cons_cons, List.append_assoc] at hrest ⊢
      rw [hrest]

/-- the longest part in front with a property ends where the property does -/
theorem span_append {α : Type} {p : α → Bool} {front rest : List α} (h : ∀ a ∈ front, p a = true)
    (hrest : ∀ a ∈ rest.head?, p a = false) :
    (front ++ rest).takeWhile p = front ∧ (front ++ rest).dropWhile p = rest := by
  rw [List.takeWhile_append_of_pos h, List.dropWhile_append_of_pos h]
  cases rest with
  | nil => simp
  | cons a rest =>
    have ha : p a = false := hrest a rfl
    simp [ha]

/-! ## Steps that can fail -/

/-- a sequence of two steps succeeds exactly when both do -/
theorem bind_eq_ok_iff {ε α β : Type} {x : Except ε α} {f : α → Except ε β} {b : β} :
    x >>= f = .ok b ↔ ∃ a, x = .ok a ∧ f a = .ok b := by
  constructor
  · intro h
    cases x with
    | error e => cases h
    | ok a => exact ⟨a, rfl, h⟩
  · rintro ⟨a, rfl, h⟩
    exact h

theorem map_eq_error_iff {ε α β : Type} {f : α → β} {x : Except ε α} {e : ε} :
    x.map f = .error e ↔ x = .error e := by
  cases x <;> simp [Except.map]

/-- a sequence of steps fails with the first step that fails -/
theorem foldlM_eq_error_iff {ε α β : Type} {f : β → α → Except ε β} {b : β} {l : List α} {e : ε} :
    l.foldlM f b = .error e ↔
      ∃ before a after, l = before ++ a :: after ∧ ∃ b', before.foldlM f b = .ok b' ∧ f b' a = .error e := by
  induction l generalizing b with
  | nil => simp [pure, Except.pure]
  | cons a l ih =>
    rw [List.foldlM_cons]
    constructor
    · intro h
      cases hfirst : f b a with
      | error e' =>
        rw [hfirst] at h
        cases h
        exact ⟨[], a, l, rfl, b, rfl, hfirst⟩
      | ok b₁ =>
        rw [hfirst] at h
        obtain ⟨before, a', after, rfl, b', hbefore, ha'⟩ := ih.1 h
        refine ⟨a :: before, a', after, rfl, b', ?_, ha'⟩
        rw [List.foldlM_cons, hfirst]
        exact hbefore
    · rintro ⟨before, a', after, hl, b', hbefore, ha'⟩
      cases before with
      | nil =>
        cases hl
        cases hbefore
        rw [ha']
        rfl
      | cons first before =>
        cases hl
        obtain ⟨b₁, hfirst, hbefore⟩ := bind_eq_ok_iff.1 hbefore
        rw [hfirst]
        exact ih.2 ⟨before, a', after, rfl, b', hbefore, ha'⟩

end StubTemplate
