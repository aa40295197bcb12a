/-
Rounding to double precision.

The magnitudes of the ranks grow with the rank (`strictMono_units`), by a step that doubles from one power of two to the
next (`units_shift`, `units_add_le`). A rank is `Nearest` to a number if no other rank has a magnitude that is nearer, and
if it is even where another one is as near. Infinity counts as `2 ^ 1024` in this, the number that would come next after
the largest finite one. There is one such rank for a number (`Nearest.unique`).

Main result: `nearest_decimalRank`. The rank of a decimal number is the nearest one, whatever its digits and its exponent.
-/
import Mathlib.Algebra.Order.Field.Power
import Mathlib.Algebra.Order.Ring.Unbundled.Rat
import Mathlib.Data.Nat.Cast.Order.Field
import Mathlib.Tactic.Linarith
import Mathlib.Tactic.Positivity
import Mathlib.Tactic.Ring
import StubTemplate.Number.Binary64

namespace StubTemplate.Binary64

/-! ## From rank to rank -/

theorem binade_pos : 0 < binade := by decide

/-- the magnitudes from one power of two up to the next -/
theorem units_binade {rest : Nat} (hrest : rest < binade) (k : Nat) :
    units ((k + 1) * binade + rest) = (binade + rest) * 2 ^ k := by
  have hdiv : ((k + 1) * binade + rest) / binade = k + 1 := by
    rw [Nat.mul_comm, Nat.mul_add_div binade_pos, Nat.div_eq_of_lt hrest, Nat.add_zero]
  have hmod : ((k + 1) * binade + rest) % binade = rest := by
    rw [Nat.mul_comm, Nat.mul_add_mod, Nat.mod_eq_of_lt hrest]
  unfold units
  split
  · rename_i hsmall
    have hk : k = 0 := by
      by_contra hk
      have hle : 2 * binade ≤ (k + 1) * binade := Nat.mul_le_mul_right binade (by omega)
      omega
    rw [hk, Nat.zero_add, Nat.one_mul, Nat.pow_zero, Nat.mul_one]
  · rw [hdiv, hmod, Nat.add_sub_cancel, Nat.pow_eq]

/-- a rank as a shift and a significand of 53 bits; without a shift the significand may have fewer -/
theorem exists_shift (rank : Nat) :
    ∃ k significand, rank = k * binade + significand ∧ significand < 2 * binade ∧ (k = 0 ∨ binade ≤ significand) := by
  have hpos := binade_pos
  by_cases hsmall : rank < binade
  · exact ⟨0, rank, by omega, by omega, .inl rfl⟩
  · have hmod := Nat.mod_lt rank hpos
    have hdiv : 1 ≤ rank / binade := (Nat.le_div_iff_mul_le hpos).2 (by omega)
    refine ⟨rank / binade - 1, binade + rank % binade, ?_, by omega, .inr (by omega)⟩
    have hrank := Nat.div_add_mod rank binade
    obtain ⟨k, hk⟩ := Nat.exists_eq_add_of_le hdiv
    rw [hk, Nat.mul_add, Nat.mul_one, Nat.mul_comm] at hrank
    rw [hk, Nat.add_sub_cancel_left]
    omega

/-- the magnitude of a shifted significand, `2 ^ 53` included -/
theorem units_shift {k significand : Nat} (hle : significand ≤ 2 * binade) (h : k = 0 ∨ binade ≤ significand) :
    units (k * binade + significand) = significand * 2 ^ k := by
  have hpos := binade_pos
  by_cases hsmall : significand < binade
  · have hk : k = 0 := h.resolve_right (by omega)
    rw [hk, Nat.zero_mul, Nat.zero_add, Nat.pow_zero, Nat.mul_one, units, if_pos (by omega)]
  · obtain ⟨rest, rfl⟩ := Nat.exists_eq_add_of_le (Nat.not_lt.1 hsmall)
    rw [← Nat.add_assoc, ← Nat.succ_mul]
    by_cases hrest : rest < binade
    · exact units_binade hrest k
    · have hfull : rest = binade := by omega
      have hnext := units_binade hpos (k + 1)
      rw [Nat.add_zero, Nat.add_zero, Nat.pow_succ, Nat.succ_mul] at hnext
      rw [hfull, hnext]
      ring

/-- the step after a rank -/
theorem units_add_le {k significand : Nat} (hle : significand ≤ 2 * binade) (h : k = 0 ∨ binade ≤ significand) :
    units (k * binade + significand) + 2 ^ k ≤ units (k * binade + significand + 1) := by
  have hpos := binade_pos
  rw [units_shift hle h, Nat.add_assoc]
  by_cases hlt : significand < 2 * binade
  · rw [units_shift (by omega) (h.imp_right (by omega)), Nat.succ_mul]
  · have hfull : k * binade + (significand + 1) = (k + 1) * binade + (binade + 1) := by
      rw [Nat.succ_mul]
      omega
    have hbinade : 2 ≤ binade := by decide
    rw [hfull, units_shift (by omega) (.inr (by omega)), Nat.pow_succ]
    have hsignificand : significand = 2 * binade := by omega
    rw [hsignificand]
    nlinarith [Nat.two_pow_pos k]

theorem strictMono_units : StrictMono units := by
  refine strictMono_nat_of_lt_succ fun rank => ?_
  obtain ⟨k, significand, rfl, hlt, h⟩ := exists_shift rank
  exact Nat.lt_of_lt_of_le (Nat.lt_add_of_pos_right (Nat.two_pow_pos k)) (units_add_le (Nat.le_of_lt hlt) h)

theorem units_zero : units 0 = 0 := rfl

theorem units_infinityRank : units infinityRank = binade * 2 ^ 2046 := by
  have hrank : infinityRank = (2046 + 1) * binade + 0 := rfl
  rw [hrank, units_binade binade_pos, Nat.add_zero]

/-! ## Integers -/

theorem roundHalfEven_bounds (num den : Nat) :
    num / den ≤ roundHalfEven num den ∧ roundHalfEven num den ≤ num / den + 1 := by
  unfold roundHalfEven
  dsimp only
  split_ifs <;> omega

theorem div_eq_add_mod_div (num : Nat) {den : Nat} (hden : 0 < den) :
    (num : ℚ) / den = (num / den : Nat) + (num % den : Nat) / den := by
  have hpos : (0 : ℚ) < den := Nat.cast_pos.2 hden
  have hcast : (num : ℚ) = den * (num / den : Nat) + (num % den : Nat) := by
    exact_mod_cast (Nat.div_add_mod num den).symm
  rw [eq_comm, ← mul_div_cancel_left₀ ((num / den : Nat) : ℚ) hpos.ne', ← add_div, ← hcast]

/-- rounding to an integer is wrong by at most one half, and by one half only where it gives an even integer -/
theorem roundHalfEven_error (num : Nat) {den : Nat} (hden : 0 < den) :
    |(roundHalfEven num den : ℚ) - num / den| ≤ 1 / 2 ∧
      (|(roundHalfEven num den : ℚ) - num / den| = 1 / 2 → roundHalfEven num den % 2 = 0) := by
  have hpos : (0 : ℚ) < den := Nat.cast_pos.2 hden
  have hrest : (0 : ℚ) ≤ (num % den : Nat) / den := by positivity
  rw [div_eq_add_mod_div num hden]
  generalize hfraction : ((num % den : Nat) : ℚ) / den = fraction at hrest
  have hmul : ((num % den : Nat) : ℚ) = fraction * den := by rw [← hfraction, div_mul_cancel₀ _ hpos.ne']
  have hlt : fraction * den < den := by
    rw [← hmul]
    exact_mod_cast Nat.mod_lt num hden
  unfold roundHalfEven
  dsimp only
  split_ifs with hbelow habove
  · have hsmall : 2 * (fraction * den) < den := by
      rw [← hmul]
      exact_mod_cast hbelow
    have hfraction : fraction < 1 / 2 := by nlinarith
    rw [sub_add_cancel_left, abs_neg, abs_of_nonneg hrest]
    exact ⟨hfraction.le, fun h => absurd h hfraction.ne⟩
  · have hlarge : den < 2 * (fraction * den) := by
      rw [← hmul]
      exact_mod_cast habove
    have hfraction : 1 / 2 < fraction := by nlinarith
    have hone : fraction < 1 := by nlinarith
    rw [Nat.cast_add, Nat.cast_one, add_sub_add_left_eq_sub, abs_of_pos (by linarith)]
    exact ⟨by linarith, fun h => by linarith⟩
  · have htie : 2 * (fraction * den) = den := by
      rw [← hmul]
      exact_mod_cast Nat.le_antisymm (Nat.not_lt.1 habove) (Nat.not_lt.1 hbelow)
    have hfraction : fraction = 1 / 2 := by nlinarith
    rw [hfraction, Nat.cast_add, add_sub_add_left_eq_sub]
    refine ⟨?_, fun _ => by omega⟩
    rcases Nat.mod_two_eq_zero_or_one (num / den) with hparity | hparity
    · rw [hparity]
      norm_num
    · rw [hparity]
      norm_num

/-! ## The nearest rank -/

/-- the magnitude of a rank as a number; that of infinity is `2 ^ 1024` -/
def magnitude (rank : Nat) : ℚ := units rank / one

/-- no rank up to infinity is nearer to `q`, and if another one is as near, this is the even one -/
structure Nearest (rank : Nat) (q : ℚ) : Prop where
  le_infinity : rank ≤ infinityRank
  closest : ∀ other ≤ infinityRank, |magnitude rank - q| ≤ |magnitude other - q|
  even : ∀ other ≤ infinityRank, other ≠ rank → |magnitude other - q| = |magnitude rank - q| → rank % 2 = 0

theorem one_pos : (0 : ℚ) < one := by
  have hpos : 0 < one := by decide +kernel
  exact Nat.cast_pos.2 hpos

theorem strictMono_magnitude : StrictMono magnitude := by
  intro a b h
  exact div_lt_div_of_pos_right (Nat.cast_lt.2 (strictMono_units h)) one_pos

theorem abs_magnitude_sub (rank : Nat) (q : ℚ) : |magnitude rank - q| = |units rank - q * one| / one := by
  rw [magnitude, ← abs_of_pos one_pos, ← abs_div, abs_of_pos one_pos, sub_div, mul_div_cancel_right₀ _ one_pos.ne']

/-- a rank is the nearest one if the number is at most half a step away, and exactly half a step only from an even rank -/
theorem nearest_of_step {rank : Nat} {q : ℚ} (half : ℚ) (hle : rank ≤ infinityRank)
    (herror : |units rank - q * one| ≤ half) (heven : |units rank - q * one| = half → rank % 2 = 0)
    (habove : ∀ other, rank < other → (units rank : ℚ) + 2 * half ≤ units other)
    (hbelow : ∀ other < rank, (units other : ℚ) + 2 * half ≤ units rank ∨ (units rank : ℚ) ≤ q * one) :
    Nearest rank q := by
  have hother : ∀ other ≠ rank, |units rank - q * one| < |units other - q * one| ∨
      |units rank - q * one| = half ∧ half ≤ |units other - q * one| := by
    intro other hne
    obtain ⟨hlow, hhigh⟩ := abs_le.1 herror
    have hfar : half ≤ |units other - q * one| ∨ |units rank - q * one| < |units other - q * one| := by
      rcases Nat.lt_or_gt_of_ne hne with hlt | hgt
      · rcases hbelow other hlt with hstep | hle
        · left
          rw [abs_sub_comm]
          exact le_trans (by linarith) (le_abs_self _)
        · right
          have hless : (units other : ℚ) < units rank := Nat.cast_lt.2 (strictMono_units hlt)
          rw [abs_of_nonpos (by linarith), abs_of_neg (by linarith)]
          linarith
      · left
        have hstep := habove other hgt
        exact le_trans (by linarith) (le_abs_self _)
    rcases hfar with hfar | hfar
    · rcases herror.lt_or_eq with hlt | heq
      · exact .inl (lt_of_lt_of_le hlt hfar)
      · exact .inr ⟨heq, hfar⟩
    · exact .inl hfar
  refine ⟨hle, ?_, ?_⟩
  · intro other _
    rw [abs_magnitude_sub, abs_magnitude_sub]
    refine div_le_div_of_nonneg_right ?_ one_pos.le
    by_cases hne : other = rank
    · rw [hne]
    · rcases hother other hne with hlt | ⟨heq, hfar⟩
      · exact hlt.le
      · exact heq.le.trans hfar
  · intro other _ hne heq
    rw [abs_magnitude_sub, abs_magnitude_sub, div_left_inj' one_pos.ne'] at heq
    rcases hother other hne with hlt | ⟨hhalf, -⟩
    · exact absurd heq hlt.ne'
    · exact heven hhalf

/-- whatever is not below `2 ^ 1024` is nearest to infinity -/
theorem nearest_infinityRank {q : ℚ} (h : magnitude infinityRank ≤ q) : Nearest infinityRank q := by
  have hless : ∀ other ≤ infinityRank, magnitude other ≤ magnitude infinityRank := by
    intro other hother
    exact strictMono_magnitude.monotone hother
  refine ⟨Nat.le_refl _, ?_, ?_⟩
  · intro other hother
    have hmagnitude := hless other hother
    rw [abs_of_nonpos (by linarith), abs_of_nonpos (by linarith)]
    linarith
  · intro other hother hne heq
    have hmagnitude := hless other hother
    rw [abs_of_nonpos (by linarith), abs_of_nonpos (by linarith)] at heq
    exact absurd (strictMono_magnitude.injective (by linarith)) hne

/-- whatever is at most half of the smallest number is nearest to zero -/
theorem nearest_zero {q : ℚ} (hnonneg : 0 ≤ q) (h : q * one ≤ 1 / 2) : Nearest 0 q := by
  have hscaled : 0 ≤ q * one := mul_nonneg hnonneg one_pos.le
  refine nearest_of_step (1 / 2) (Nat.zero_le _) ?_ (fun _ => rfl) ?_ ?_
  · rw [units_zero, Nat.cast_zero, zero_sub, abs_neg, abs_of_nonneg hscaled]
    exact h
  · intro other hother
    have hone : 1 ≤ units other := by
      have hlt := strictMono_units hother
      omega
    have hcast : (1 : ℚ) ≤ units other := by exact_mod_cast hone
    rw [units_zero, Nat.cast_zero]
    linarith
  · intro other hother
    exact absurd hother (Nat.not_lt_zero other)

/-- a shifted significand is nearest if it is the integer nearest to the number on its scale, as long as it is finite -/
theorem nearest_shift {k significand : Nat} {q : ℚ} (hle : significand ≤ 2 * binade)
    (hfinite : k * binade + significand ≤ infinityRank)
    (hbinade : k = 0 ∨ (binade * 2 ^ k : ℚ) ≤ q * one ∧ binade ≤ significand)
    (herror : |significand - q * one / 2 ^ k| ≤ 1 / 2)
    (heven : |significand - q * one / 2 ^ k| = 1 / 2 → significand % 2 = 0) :
    Nearest (k * binade + significand) q := by
  have hscale : (0 : ℚ) < 2 ^ k := by positivity
  have hnormal : k = 0 ∨ binade ≤ significand := hbinade.imp_right And.right
  have hunits : (units (k * binade + significand) : ℚ) = significand * 2 ^ k := by
    rw [units_shift hle hnormal]
    push_cast
    rfl
  have hscaled : |(units (k * binade + significand) : ℚ) - q * one| = |significand - q * one / 2 ^ k| * 2 ^ k := by
    rw [hunits, ← abs_of_pos hscale, ← abs_mul, abs_of_pos hscale, sub_mul, div_mul_cancel₀ _ hscale.ne']
  refine nearest_of_step (2 ^ k / 2) hfinite ?_ ?_ ?_ ?_
  · rw [hscaled]
    nlinarith
  · intro heq
    rw [hscaled] at heq
    have hparity := heven (by nlinarith)
    have hbinadeEven : binade % 2 = 0 := by decide
    rw [Nat.add_mod, Nat.mul_mod, hbinadeEven, hparity, Nat.mul_zero]
  · intro other hother
    have hstep := Nat.le_trans (units_add_le hle hnormal) (strictMono_units.monotone hother)
    have hcast : ((units (k * binade + significand) + 2 ^ k : Nat) : ℚ) ≤ units other := Nat.cast_le.2 hstep
    push_cast at hcast
    linarith
  · intro other hother
    by_cases hprevious : k = 0 ∨ binade < significand
    · left
      obtain ⟨previous, hsignificand⟩ : ∃ previous, significand = previous + 1 := by
        apply Nat.exists_eq_add_one_of_ne_zero
        intro hzero
        have hk : k = 0 := hprevious.resolve_right (by omega)
        rw [hk, hzero, Nat.zero_mul] at hother
        exact Nat.not_lt_zero other hother
      have hstep : units (k * binade + previous) + 2 ^ k ≤ units (k * binade + previous + 1) :=
        units_add_le (by omega) (hprevious.imp_right (by omega))
      rw [Nat.add_assoc, ← hsignificand] at hstep
      rw [hsignificand, ← Nat.add_assoc] at hother
      have hless : units other ≤ units (k * binade + previous) := strictMono_units.monotone (Nat.le_of_lt_succ hother)
      have hcast : ((units other + 2 ^ k : Nat) : ℚ) ≤ units (k * binade + significand) :=
        Nat.cast_le.2 (Nat.le_trans (Nat.add_le_add_right hless _) hstep)
      push_cast at hcast
      linarith
    · -- the step below a power of two is only half as long, but the number is not below this power
      right
      rw [not_or] at hprevious
      obtain ⟨hlower, hsignificand⟩ := hbinade.resolve_left hprevious.1
      have hpower : significand = binade := by omega
      rw [hunits, hpower]
      exact hlower

/-- the shift of `nearestRank` leaves a significand of 53 bits, or fewer without a shift -/
theorem significand_bounds (num den : Nat) {k : Nat} (hk : k = (num / den).log2 - 52) :
    roundHalfEven num (den * 2 ^ k) ≤ 2 * binade ∧
      (k = 0 ∨ binade * 2 ^ k ≤ num / den ∧ binade ≤ roundHalfEven num (den * 2 ^ k)) := by
  have hbinade : binade = 2 ^ 52 := rfl
  obtain ⟨hlow, hhigh⟩ := roundHalfEven_bounds num (den * 2 ^ k)
  rw [← Nat.div_div_eq_div_mul] at hlow hhigh
  have hupper : num / den / 2 ^ k < 2 * binade := by
    rw [Nat.div_lt_iff_lt_mul (Nat.two_pow_pos k), hbinade, ← Nat.pow_succ', ← Nat.pow_add]
    exact Nat.lt_of_lt_of_le Nat.lt_log2_self (Nat.pow_le_pow_right (by decide) (by omega))
  refine ⟨by omega, ?_⟩
  by_cases hzero : k = 0
  · exact .inl hzero
  · right
    have hlower : binade * 2 ^ k ≤ num / den := by
      have hne : num / den ≠ 0 := by
        intro h
        rw [h, Nat.log2_zero] at hk
        omega
      rw [hbinade, ← Nat.pow_add, (by omega : 52 + k = (num / den).log2)]
      exact Nat.log2_self_le hne
    refine ⟨hlower, Nat.le_trans ?_ hlow⟩
    rwa [Nat.le_div_iff_mul_le (Nat.two_pow_pos k)]

/-- a shift that leads beyond infinity is one of a number that has reached `2 ^ 1024` -/
theorem units_infinityRank_le {n k significand : Nat} (hle : significand ≤ 2 * binade)
    (hbinade : k = 0 ∨ binade * 2 ^ k ≤ n ∧ binade ≤ significand) (hlt : infinityRank < k * binade + significand) :
    units infinityRank ≤ n := by
  have hrank : infinityRank = 2047 * binade := rfl
  have hk : 2046 ≤ k := by
    by_contra hsmall
    have hmul : k * binade ≤ 2045 * binade := Nat.mul_le_mul_right binade (by omega)
    omega
  refine Nat.le_trans ?_ (hbinade.resolve_left (by omega)).1
  rw [units_infinityRank]
  gcongr
  decide

/-- the rank of a fraction of units is the nearest one -/
theorem nearest_nearestRank (num : Nat) {den : Nat} (hden : 0 < den) :
    Nearest (nearestRank num den) ((num : ℚ) / den / one) := by
  unfold nearestRank
  dsimp only
  generalize hk : (num / den).log2 - 52 = k
  obtain ⟨hle, hbinade⟩ := significand_bounds num den hk.symm
  obtain ⟨herror, heven⟩ := roundHalfEven_error num (Nat.mul_pos hden (Nat.two_pow_pos k))
  rw [Nat.pow_eq]
  generalize roundHalfEven num (den * 2 ^ k) = significand at hle hbinade herror heven
  have hunits : (num : ℚ) / den / one * one = num / den := div_mul_cancel₀ _ one_pos.ne'
  have hscaled : (num : ℚ) / (den * 2 ^ k : Nat) = num / den / one * one / 2 ^ k := by
    rw [hunits, Nat.cast_mul, Nat.cast_pow, Nat.cast_ofNat, div_div]
  rw [hscaled] at herror heven
  have hlower : ∀ {n : Nat}, n ≤ num / den → (n : ℚ) ≤ num / den / one * one := by
    intro n hn
    rw [hunits]
    exact le_trans (Nat.cast_le.2 hn) Nat.cast_div_le
  by_cases hfinite : k * binade + significand ≤ infinityRank
  · rw [Nat.min_eq_left hfinite]
    refine nearest_shift hle hfinite (hbinade.imp_right fun ⟨hpower, hsignificand⟩ => ⟨?_, hsignificand⟩) herror heven
    exact_mod_cast hlower hpower
  · rw [Nat.min_eq_right (Nat.le_of_not_le hfinite)]
    apply nearest_infinityRank
    rw [magnitude, div_le_iff₀ one_pos]
    exact hlower (units_infinityRank_le hle hbinade (Nat.not_le.1 hfinite))

namespace Nearest

variable {a b rank : Nat} {q : ℚ}

/-- two ranks that are nearest to the same number are equal -/
theorem unique (ha : Nearest a q) (hb : Nearest b q) : a = b := by
  by_contra hne
  wlog hlt : a < b generalizing a b
  · exact this hb ha (Ne.symm hne) (by omega)
  have heq : |magnitude a - q| = |magnitude b - q| :=
    le_antisymm (ha.closest b hb.le_infinity) (hb.closest a ha.le_infinity)
  have hless := strictMono_magnitude hlt
  have hmiddle : q - magnitude a = magnitude b - q := by
    rcases abs_eq_abs.1 heq with h | h <;> linarith
  -- both are even, so there is a rank between them, and it is nearer
  have haEven := ha.even b hb.le_infinity (Ne.symm hne) heq.symm
  have hbEven := hb.even a ha.le_infinity hne heq
  have hbetween : a + 1 < b := by omega
  have hlow := strictMono_magnitude (Nat.lt_succ_self a)
  have hhigh := strictMono_magnitude hbetween
  have hclosest := ha.closest (a + 1) (Nat.le_trans hbetween.le hb.le_infinity)
  have hnearer : |magnitude (a + 1) - q| < q - magnitude a := abs_lt.2 ⟨by linarith, by linarith⟩
  rw [abs_of_neg (by linarith)] at hclosest
  linarith

/-- what is not below a rank is not nearest to a smaller one -/
theorem le_of_magnitude_le (h : Nearest rank q) (hb : b ≤ infinityRank) (hq : magnitude b ≤ q) : b ≤ rank := by
  by_contra hlt
  have hless := strictMono_magnitude (Nat.not_le.1 hlt)
  have hclosest := h.closest b hb
  rw [abs_of_neg (by linarith), abs_of_nonpos (by linarith)] at hclosest
  linarith

end Nearest

/-! ## Decimal numbers -/

/-- a decimal number lies between the powers of ten that the number of its digits gives -/
theorem decimal_bounds {digits : Nat} (hpos : digits ≠ 0) (exponent : Int) :
    (10 : ℚ) ^ ((Nat.toDigits 10 digits).length + exponent - 1) ≤ digits * 10 ^ exponent ∧
      digits * (10 : ℚ) ^ exponent < 10 ^ ((Nat.toDigits 10 digits).length + exponent) := by
  have hscale : (0 : ℚ) < 10 ^ exponent := zpow_pos (by norm_num) exponent
  obtain ⟨length, hlength⟩ := Nat.exists_eq_add_one_of_ne_zero
    (Nat.pos_iff_ne_zero.1 (Nat.length_toDigits_pos (b := 10) (n := digits)))
  rw [hlength]
  have hhigh : digits < 10 ^ (length + 1) := by
    rw [← Nat.length_toDigits_le_iff (by decide) (by omega), hlength]
  have hlow : 10 ^ length ≤ digits := by
    rcases Nat.eq_zero_or_pos length with rfl | hlengthPos
    · exact Nat.one_le_iff_ne_zero.2 hpos
    · rw [← Nat.not_lt, ← Nat.length_toDigits_le_iff (by decide) hlengthPos, hlength]
      omega
  constructor
  · have hcast : ((10 ^ length : Nat) : ℚ) ≤ digits := Nat.cast_le.2 hlow
    calc (10 : ℚ) ^ (((length + 1 : Nat) : Int) + exponent - 1) = 10 ^ ((length : Int) + exponent) := by
          congr 1
          omega
      _ = ((10 ^ length : Nat) : ℚ) * 10 ^ exponent := by
          rw [zpow_add₀ (by norm_num), zpow_natCast, Nat.cast_pow, Nat.cast_ofNat]
      _ ≤ digits * 10 ^ exponent := mul_le_mul_of_nonneg_right hcast hscale.le
  · have hcast : (digits : ℚ) < ((10 ^ (length + 1) : Nat) : ℚ) := Nat.cast_lt.2 hhigh
    calc digits * (10 : ℚ) ^ exponent < ((10 ^ (length + 1) : Nat) : ℚ) * 10 ^ exponent :=
          mul_lt_mul_of_pos_right hcast hscale
      _ = 10 ^ (((length + 1 : Nat) : Int) + exponent) := by
          rw [zpow_add₀ (by norm_num), zpow_natCast, Nat.cast_pow, Nat.cast_ofNat]

theorem magnitude_infinityRank_le : magnitude infinityRank ≤ 10 ^ 310 := by
  have hle : units infinityRank ≤ 10 ^ 310 * one := by decide +kernel
  rw [magnitude, div_le_iff₀ one_pos]
  exact_mod_cast hle

theorem zpow_neg_mul_one_le {k : Nat} (h : 2 * one ≤ 10 ^ k) : (10 : ℚ) ^ (-(k : Int)) * one ≤ 1 / 2 := by
  have hcast : ((2 * one : Nat) : ℚ) ≤ ((10 ^ k : Nat) : ℚ) := Nat.cast_le.2 h
  push_cast at hcast
  rw [zpow_neg, zpow_natCast, inv_mul_le_iff₀ (by positivity)]
  linarith

/-- the rank of a decimal number is the nearest one -/
theorem nearest_decimalRank (digits : Nat) (exponent : Int) :
    Nearest (decimalRank digits exponent) (digits * 10 ^ exponent) := by
  have hscale : (0 : ℚ) < 10 ^ exponent := zpow_pos (by norm_num) exponent
  unfold decimalRank
  dsimp only
  by_cases hzero : digits = 0
  · rw [if_pos (.inl hzero), hzero, Nat.cast_zero, zero_mul]
    exact nearest_zero (le_refl 0) ((zero_mul _).trans_le one_half_pos.le)
  obtain ⟨hlow, hhigh⟩ := decimal_bounds hzero exponent
  generalize ((Nat.toDigits 10 digits).length : Int) + exponent = size at hlow hhigh
  split_ifs with hsmall hlarge hexponent
  · have hsize : size ≤ -330 := (hsmall.resolve_left hzero).le
    apply nearest_zero (by positivity)
    have hpower : (10 : ℚ) ^ size ≤ 10 ^ (-330 : Int) := zpow_le_zpow_right₀ (by norm_num) hsize
    have hunder : (10 : ℚ) ^ (-330 : Int) * one ≤ 1 / 2 := zpow_neg_mul_one_le (k := 330) (by decide +kernel)
    calc digits * (10 : ℚ) ^ exponent * one ≤ 10 ^ (-330 : Int) * one :=
          mul_le_mul_of_nonneg_right (hhigh.le.trans hpower) one_pos.le
      _ ≤ 1 / 2 := hunder
  · apply nearest_infinityRank
    have hpower : (10 : ℚ) ^ (310 : Int) ≤ 10 ^ (size - 1) := zpow_le_zpow_right₀ (by norm_num) (by omega)
    exact (magnitude_infinityRank_le.trans_eq (zpow_natCast 10 310).symm).trans (hpower.trans hlow)
  · obtain ⟨k, rfl⟩ := Int.eq_ofNat_of_zero_le hexponent
    have h := nearest_nearestRank (digits * 10 ^ k * one) Nat.one_pos
    rwa [Nat.cast_mul, Nat.cast_one, div_one, mul_div_cancel_right₀ _ one_pos.ne', Nat.cast_mul, Nat.cast_pow,
      Nat.cast_ofNat, ← zpow_natCast] at h
  · obtain ⟨k, hk⟩ := Int.exists_eq_neg_ofNat (Int.le_of_not_le hexponent)
    rw [hk, neg_neg, Int.toNat_natCast]
    have h := nearest_nearestRank (digits * one) (Nat.pow_pos (n := k) (by decide : 0 < 10))
    rwa [Nat.cast_mul, div_right_comm, mul_div_cancel_right₀ _ one_pos.ne', Nat.cast_pow, Nat.cast_ofNat,
      ← zpow_natCast, div_eq_mul_inv, ← zpow_neg] at h

end StubTemplate.Binary64
