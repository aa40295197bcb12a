/-
Sets of texts that are given by classes of characters, as in regular expressions.

`oneOf` is a class such as `[a-z0-9]`; with the operations on languages it spells out a regular expression. A text is a
word of `(oneOf ranges)∗` exactly if all its characters are in the class (`mem_kstar_oneOf`). `Avoids` says that a
character is in no word, and is kept by every operation.
-/
import Mathlib.Computability.Language

namespace StubTemplate

open scoped Computability

/-! ## Classes of characters -/

/-- the characters of a class such as `[a-z0-9]`, given by its ranges -/
def InRanges (ranges : List (Char × Char)) (c : Char) : Prop :=
  ∃ range ∈ ranges, range.1 ≤ c ∧ c ≤ range.2

/-- the texts of one character out of a class -/
def oneOf (ranges : List (Char × Char)) : Language Char :=
  {s | ∃ c, s = [c] ∧ InRanges ranges c}

@[simp] theorem inRanges_nil (c : Char) : ¬ InRanges [] c := by simp [InRanges]

@[simp] theorem inRanges_cons {low high c : Char} {ranges : List (Char × Char)} :
    InRanges ((low, high) :: ranges) c ↔ (low ≤ c ∧ c ≤ high) ∨ InRanges ranges c := by
  simp [InRanges]

theorem le_iff_toNat_le {c d : Char} : c ≤ d ↔ c.toNat ≤ d.toNat := UInt32.le_iff_toNat_le

theorem mem_kstar_oneOf {ranges : List (Char × Char)} {s : List Char} :
    s ∈ (oneOf ranges)∗ ↔ ∀ c ∈ s, InRanges ranges c := by
  constructor
  · intro h c hc
    obtain ⟨parts, rfl, hparts⟩ := Language.mem_kstar.1 h
    obtain ⟨part, hpart, hcpart⟩ := List.mem_flatten.1 hc
    obtain ⟨d, rfl, hd⟩ := hparts part hpart
    rw [List.mem_singleton.1 hcpart]
    exact hd
  · intro h
    refine Language.mem_kstar.2 ⟨s.map fun c => [c], List.flatMap_singleton' s |>.symm, ?_⟩
    intro part hpart
    obtain ⟨c, hc, rfl⟩ := List.mem_map.1 hpart
    exact ⟨c, rfl, h c hc⟩

theorem mem_oneOf_singletons (chars : List Char) {s : List Char} :
    s ∈ oneOf (chars.map fun c => (c, c)) ↔ ∃ c ∈ chars, s = [c] := by
  constructor
  · rintro ⟨c, rfl, range, hrange, hlow, hhigh⟩
    obtain ⟨d, hd, rfl⟩ := List.mem_map.1 hrange
    rw [Char.le_antisymm hhigh hlow]
    exact ⟨d, hd, rfl⟩
  · rintro ⟨c, hc, rfl⟩
    exact ⟨c, rfl, (c, c), List.mem_map.2 ⟨c, hc, rfl⟩, Char.le_refl c, Char.le_refl c⟩

/-! ## Characters that are in no word -/

/-- no word of the language has the character -/
def Avoids (c : Char) (words : Language Char) : Prop := ∀ s ∈ words, c ∉ s

namespace Avoids

variable {c : Char} {a b : Language Char}

theorem one : Avoids c 1 := by
  intro s hs
  rw [(Language.mem_one s).1 hs]
  exact List.not_mem_nil

theorem oneOf {ranges : List (Char × Char)} (h : ∀ range ∈ ranges, ¬ (range.1 ≤ c ∧ c ≤ range.2)) :
    Avoids c (oneOf ranges) := by
  rintro _ ⟨d, rfl, range, hrange, hd⟩ hc
  exact h range hrange (List.mem_singleton.1 hc ▸ hd)

theorem add (ha : Avoids c a) (hb : Avoids c b) : Avoids c (a + b) := by
  intro s hs
  exact ((Language.mem_add _ _ _).1 hs).elim (ha s) (hb s)

theorem mul (ha : Avoids c a) (hb : Avoids c b) : Avoids c (a * b) := by
  intro s hs
  obtain ⟨s₁, h₁, s₂, h₂, rfl⟩ := Language.mem_mul.1 hs
  exact fun hc => (List.mem_append.1 hc).elim (ha s₁ h₁) (hb s₂ h₂)

theorem kstar (ha : Avoids c a) : Avoids c a∗ := by
  intro s hs hc
  obtain ⟨parts, rfl, hparts⟩ := Language.mem_kstar.1 hs
  obtain ⟨part, hpart, hcpart⟩ := List.mem_flatten.1 hc
  exact ha part (hparts part hpart) hcpart

end Avoids

end StubTemplate
