/-
The bounds on the number of steps in which TOML is read.

Two readers that are given different numbers of steps agree on all texts that are short enough for both (`AgreeBelow`).
Each step that goes on with the rest of a text has taken a character before, so what a step needs to agree is that the
readers in it agree on shorter texts (`agreeBelow_value_succ`, `agreeBelow_items_succ`, `agreeBelow_fields_succ`). Main
result: `read?_eq`. The length of a text is a bound that refuses nothing: with any greater one the text is read alike.
-/
import Mathlib.Control.Lawful
import StubTemplate.Proofs.Documents
import StubTemplate.Proofs.Readers

namespace StubTemplate.Toml

open Scan

/-- two readers give the same for every text shorter than a length -/
def AgreeBelow {α : Type} (n : Nat) (x y : Scan α) : Prop := ∀ s : List Char, s.length < n → x s = y s

section

variable {α β : Type} {P : α → Prop} {n : Nat} {x y : Scan α} {f g : α → Scan β}

theorem bind_eq_bind {s : List Char} (h : ∀ a rest, x s = some (a, rest) → f a rest = g a rest) :
    (x >>= f) s = (x >>= g) s :=
  Option.bind_congr fun read hread => h read.1 read.2 hread

theorem AgreeBelow.refl (n : Nat) (x : Scan α) : AgreeBelow n x x := fun _ _ => rfl

theorem AgreeBelow.bind (h : AgreeBelow n x y) (hx : Takes P x) (hfg : ∀ a, AgreeBelow n (f a) (g a)) :
    AgreeBelow n (x >>= f) (y >>= g) := by
  intro s hs
  have hfirst : (y >>= g) s = (x >>= g) s := congrArg (Option.bind · _) (h s hs).symm
  rw [hfirst]
  exact bind_eq_bind fun a rest hread => hfg a rest (Nat.lt_of_le_of_lt (hx s a rest hread).1.length_le hs)

/-- the same reader first -/
theorem Takes.agreeBelow (hx : Takes P x) (hfg : ∀ a, AgreeBelow n (f a) (g a)) :
    AgreeBelow n (x >>= f) (x >>= g) := (AgreeBelow.refl n x).bind hx hfg

theorem AgreeBelow.ite {c : Prop} [Decidable c] {x' y' : Scan α} (h : AgreeBelow n x y) (h' : AgreeBelow n x' y') :
    AgreeBelow n (if c then x else x') (if c then y else y') := by
  split
  · exact h
  · exact h'

/-- what comes behind a character that is taken is shorter -/
theorem agreeBelow_expect {f g : Unit → Scan β} (c : Char) (hfg : AgreeBelow n (f ()) (g ())) :
    AgreeBelow (n + 1) (Scan.expect c >>= f) (Scan.expect c >>= g) := by
  intro s hs
  cases s with
  | nil => rfl
  | cons d s =>
    by_cases hd : d = c
    · rw [hd, bind_of_eq (expect_self c s), bind_of_eq (expect_self c s)]
      exact hfg s (Nat.lt_of_succ_lt_succ hs)
    · have hnone : Scan.expect c (d :: s) = none := if_neg hd
      change (Scan.expect c (d :: s)).bind _ = (Scan.expect c (d :: s)).bind _
      rw [hnone]
      rfl

theorem agreeBelow_optional {f g : Bool → Scan β} (c : Char) (htrue : AgreeBelow n (f true) (g true))
    (hfalse : AgreeBelow (n + 1) (f false) (g false)) :
    AgreeBelow (n + 1) (Scan.optional c >>= f) (Scan.optional c >>= g) := by
  intro s hs
  cases s with
  | nil => exact hfalse [] hs
  | cons d s =>
    by_cases hd : d = c
    · rw [hd, bind_of_eq (optional_self c s), bind_of_eq (optional_self c s)]
      exact htrue s (Nat.lt_of_succ_lt_succ hs)
    · rw [bind_of_eq (optional_of_ne hd s), bind_of_eq (optional_of_ne hd s)]
      exact hfalse _ hs

end

section

variable {n steps steps' : Nat}

theorem agreeBelow_value_succ {depth : Nat}
    (hitems : AgreeBelow n (items steps (depth - 1)) (items steps' (depth - 1)))
    (hfields : AgreeBelow n (fields steps (depth - 1) []) (fields steps' (depth - 1) [])) :
    AgreeBelow (n + 1) (value (steps + 1) depth) (value (steps' + 1) depth) := by
  intro s hs
  rw [value, value]
  cases s with
  | nil => rfl
  | cons c s =>
    -- the opening bracket is no part of what is read in the steps that are left
    have htail : ∀ {f g : Unit → Scan Toml}, AgreeBelow n (f ()) (g ()) →
        ((modify List.tail : Scan Unit) >>= f) (c :: s) = ((modify List.tail : Scan Unit) >>= g) (c :: s) :=
      fun hfg => hfg s (Nat.lt_of_succ_lt_succ hs)
    rw [bind_of_eq (rfl : Scan.peek _ = _), bind_of_eq (rfl : Scan.peek _ = _)]
    split_ifs
    · rfl
    · exact htail (hitems.bind (takes_items _ _) fun _ => .refl _ _)
    · rfl
    · refine htail (leavesEnd_spaces.agreeBelow fun _ => (leavesEnd_optional _).agreeBelow fun _ => ?_)
      exact .ite (.refl _ _) (hfields.bind (takes_fields _ _ _) fun _ => .refl _ _)
    · rfl

theorem agreeBelow_items_succ {depth : Nat} (hvalue : AgreeBelow (n + 1) (value steps depth) (value steps' depth))
    (hitems : AgreeBelow n (items steps depth) (items steps' depth)) :
    AgreeBelow (n + 1) (items (steps + 1) depth) (items (steps' + 1) depth) := by
  refine leavesEnd_filler.agreeBelow fun _ => (leavesEnd_optional _).agreeBelow fun _ => .ite (.refl _ _) ?_
  refine hvalue.bind (takes_value _ _) fun _ => leavesEnd_filler.agreeBelow fun _ => ?_
  exact agreeBelow_optional _ (hitems.bind (takes_items _ _) fun _ => .refl _ _) (.refl _ _)

theorem agreeBelow_fields_succ {depth : Nat} (hvalue : AgreeBelow n (value steps depth) (value steps' depth))
    (hfields : ∀ now, AgreeBelow n (fields steps depth now) (fields steps' depth now)) (before : Items) :
    AgreeBelow (n + 1) (fields (steps + 1) depth before) (fields (steps' + 1) depth before) := by
  refine leavesEnd_key.agreeBelow fun _ => agreeBelow_expect _ (leavesEnd_spaces.agreeBelow fun _ => ?_)
  refine hvalue.bind (takes_value _ _) fun _ => leavesEnd_spaces.agreeBelow fun _ => ?_
  refine leavesEnd_lift.agreeBelow fun now => (leavesEnd_optional _).agreeBelow fun _ => ?_
  exact .ite (hfields now) (.refl _ _)

/-- by induction on the length: items and fields need a step for each character more than a value -/
theorem agreeBelow_value_items_fields (n : Nat) : ∀ steps steps' depth,
    (2 * n ≤ steps + 1 → 2 * n ≤ steps' + 1 → AgreeBelow n (value steps depth) (value steps' depth)) ∧
    (2 * n ≤ steps → 2 * n ≤ steps' → AgreeBelow n (items steps depth) (items steps' depth) ∧
      ∀ before, AgreeBelow n (fields steps depth before) (fields steps' depth before)) := by
  induction n with
  | zero =>
    have hnone : ∀ {α : Type} (x y : Scan α), AgreeBelow 0 x y := fun _ _ _ h => absurd h (Nat.not_lt_zero _)
    exact fun _ _ _ => ⟨fun _ _ => hnone _ _, fun _ _ => ⟨hnone _ _, fun _ => hnone _ _⟩⟩
  | succ n ih =>
    have hvalue : ∀ steps steps' depth, 2 * (n + 1) ≤ steps + 1 → 2 * (n + 1) ≤ steps' + 1 →
        AgreeBelow (n + 1) (value steps depth) (value steps' depth) := by
      intro steps steps' depth h h'
      obtain ⟨steps, rfl⟩ : ∃ k, steps = k + 1 := ⟨steps - 1, by omega⟩
      obtain ⟨steps', rfl⟩ : ∃ k, steps' = k + 1 := ⟨steps' - 1, by omega⟩
      obtain ⟨hitems, hfields⟩ := (ih steps steps' (depth - 1)).2 (by omega) (by omega)
      exact agreeBelow_value_succ hitems (hfields [])
    intro steps steps' depth
    refine ⟨hvalue steps steps' depth, fun h h' => ?_⟩
    obtain ⟨steps, rfl⟩ : ∃ k, steps = k + 1 := ⟨steps - 1, by omega⟩
    obtain ⟨steps', rfl⟩ : ∃ k, steps' = k + 1 := ⟨steps' - 1, by omega⟩
    obtain ⟨ihvalue, ihrest⟩ := ih steps steps' depth
    obtain ⟨hitems, hfields⟩ := ihrest (by omega) (by omega)
    exact ⟨agreeBelow_items_succ (hvalue steps steps' depth (by omega) (by omega)) hitems,
      agreeBelow_fields_succ (ihvalue (by omega) (by omega)) hfields⟩

end

theorem agreeBelow_value {n steps steps' : Nat} (depth : Nat) (h : 2 * n ≤ steps + 1) (h' : 2 * n ≤ steps' + 1) :
    AgreeBelow n (value steps depth) (value steps' depth) :=
  (agreeBelow_value_items_fields n steps steps' depth).1 h h'

namespace Document

theorem agreeBelow_readLines {n : Nat} (doc : Document) {steps steps' : Nat} (h : n ≤ steps) (h' : n ≤ steps') :
    AgreeBelow n (doc.readLines steps) (doc.readLines steps') := by
  induction n generalizing doc steps steps' with
  | zero => exact fun _ h => absurd h (Nat.not_lt_zero _)
  | succ n ih =>
    obtain ⟨steps, rfl⟩ : ∃ k, steps = k + 1 := ⟨steps - 1, by omega⟩
    obtain ⟨steps', rfl⟩ : ∃ k, steps' = k + 1 := ⟨steps' - 1, by omega⟩
    rw [readLines, readLines]
    refine leavesEnd_spaces.agreeBelow fun _ s hs => ?_
    rw [bind_of_eq (rfl : Scan.peek _ = _), bind_of_eq (rfl : Scan.peek _ = _)]
    cases s with
    | nil => rfl
    | cons c s =>
      dsimp only [List.head?_cons]
      split_ifs with hc
      · refine bind_eq_bind fun _ rest hread => ih doc (by omega) (by omega) rest ?_
        exact Nat.lt_of_le_of_lt (taken_lineEnd hc s _ rest hread).1.length_le (Nat.lt_of_succ_lt_succ hs)
      · refine agreeBelow_optional '[' ?_ ?_ (c :: s) hs
        · exact (takes_readHeader doc).agreeBelow fun doc => ih doc (by omega) (by omega)
        · simp only [readField, bind_assoc]
          refine leavesEnd_key.agreeBelow fun _ => agreeBelow_expect _ (leavesEnd_spaces.agreeBelow fun _ => ?_)
          refine (agreeBelow_value _ (by omega) (by omega)).bind (takes_value _ _) fun _ => ?_
          refine leavesEnd_lineEnd.agreeBelow fun _ => leavesEnd_lift.agreeBelow fun _ => ?_
          exact ih _ (by omega) (by omega)

end Document

/-- **The bound on the steps makes no difference.** A document is read as with any greater bound. -/
theorem read?_eq (s : List Char) {steps : Nat} (h : s.length < steps) :
    read? s = (Document.readLines ⟨[], []⟩ steps (if s.head? = some '\uFEFF' then s.tail else s)).map
      fun read => ofItems read.1.items := by
  have hbody : (if s.head? = some '\uFEFF' then s.tail else s).length ≤ s.length := by
    split
    · simp
    · exact Nat.le_refl _
  rw [read?]
  exact congrArg _ (Document.agreeBelow_readLines _ (Nat.le_refl _) (Nat.lt_of_le_of_lt hbody h) _ (Nat.lt_succ_self _))

end StubTemplate.Toml
