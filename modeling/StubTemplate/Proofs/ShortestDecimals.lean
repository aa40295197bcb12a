/-
The shortest decimal that reads back.

A decimal reads back as a rank if this rank is the nearest one to its value (`readsBack_iff`). The nearest rank grows
with the number (`Nearest.mono`), so what lies between a decimal that reads back and the rank's own magnitude reads back,
too (`readsBack_of_between`). On a grid the two neighbours of the magnitude are therefore the only candidates: if any
decimal on the grid reads back, then one of them does. On the grid with seventeen digits one of them always does, since
no other magnitude is nearer than a part in `2 ^ 53` (`nearest_of_lt`).

Main result: `shortest_spec`. The decimal that is found reads back, does not end in a zero, and no decimal with fewer
digits reads back.
-/
import StubTemplate.Number.Shortest
import StubTemplate.Proofs.Rounding

namespace StubTemplate

/-! ## Decimals without zeros at the end -/

namespace Decimal

/-- the number that a decimal is -/
def value (d : Decimal) : ℚ := d.digits * 10 ^ d.exponent

theorem ten_zpow_pos (k : Int) : (0 : ℚ) < 10 ^ k := zpow_pos (by norm_num) k

theorem value_strip (d : Decimal) : d.strip.value = d.value := by
  induction d using strip.induct with
  | case1 d h ih =>
    have hdigits : d.digits = d.digits / 10 * 10 := by omega
    have hcast : (d.digits : ℚ) = (d.digits / 10 : Nat) * 10 := by exact_mod_cast hdigits
    rw [strip, if_pos h, ih, value, value, hcast, zpow_add_one₀ (by norm_num)]
    ring
  | case2 d h => rw [strip, if_neg h]

theorem strip_digits_mod {d : Decimal} (hne : d.digits ≠ 0) : d.strip.digits % 10 ≠ 0 := by
  induction d using strip.induct with
  | case1 d h ih =>
    rw [strip, if_pos h]
    exact ih (by dsimp only; omega)
  | case2 d h =>
    rw [strip, if_neg h]
    exact fun hzero => h ⟨hne, hzero⟩

theorem strip_digits_le (d : Decimal) : d.strip.digits ≤ d.digits := by
  induction d using strip.induct with
  | case1 d h ih =>
    rw [strip, if_pos h]
    exact ih.trans (Nat.div_le_self _ _)
  | case2 d h => rw [strip, if_neg h]

/-- a power of ten loses all its zeros -/
theorem strip_digits_lt {d : Decimal} {n : Nat} (h : d.digits ≤ 10 ^ (n + 1)) : d.strip.digits < 10 ^ (n + 1) := by
  rcases Nat.lt_or_eq_of_le h with hlt | heq
  · exact Nat.lt_of_le_of_lt d.strip_digits_le hlt
  · have hpower : 10 ^ n < 10 ^ (n + 1) := Nat.pow_lt_pow_succ (by decide)
    have hpos : 0 < 10 ^ n := by positivity
    rw [strip, if_pos (by omega)]
    refine Nat.lt_of_le_of_lt (strip_digits_le _) ?_
    dsimp only
    omega

theorem length_digitChars_le_iff {d : Decimal} {n : Nat} : d.digitChars.length ≤ n + 1 ↔ d.digits < 10 ^ (n + 1) :=
  Nat.length_toDigits_le_iff (by decide) n.succ_pos

theorem length_digitChars_pos (d : Decimal) : 0 < d.digitChars.length := Nat.length_toDigits_pos

/-- the exponent of the first digit says between which powers of ten the decimal lies -/
theorem value_bounds {d : Decimal} (hne : d.digits ≠ 0) :
    10 ^ d.leading ≤ d.value ∧ d.value < 10 ^ (d.leading + 1) := by
  have hbounds := Binary64.decimal_bounds hne d.exponent
  have hlow : d.leading = (Nat.toDigits 10 d.digits).length + d.exponent - 1 := by
    rw [leading, digitChars]
    omega
  rwa [hlow, Int.sub_add_cancel]

/-- a decimal as so many steps of a finer grid -/
theorem exists_value_eq {d : Decimal} {exponent : Int} (h : exponent ≤ d.exponent) :
    ∃ n : Nat, d.value = n * 10 ^ exponent := by
  obtain ⟨k, hk⟩ := Int.eq_ofNat_of_zero_le (Int.sub_nonneg_of_le h)
  refine ⟨d.digits * 10 ^ k, ?_⟩
  have hexponent : d.exponent = k + exponent := by omega
  rw [value, hexponent, zpow_add₀ (by norm_num), zpow_natCast]
  push_cast
  ring

end Decimal

namespace Binary64

open Decimal (ten_zpow_pos)

/-! ## Decimals that read back -/

theorem nearest_magnitude {rank : Nat} (h : rank ≤ infinityRank) : Nearest rank (magnitude rank) := by
  refine ⟨h, ?_, ?_⟩
  · intro other _
    rw [sub_self, abs_zero]
    exact abs_nonneg _
  · intro other _ hne heq
    rw [sub_self, abs_zero, abs_eq_zero, sub_eq_zero] at heq
    exact absurd (strictMono_magnitude.injective heq) hne

/-- the nearest rank grows with the number -/
theorem Nearest.mono {a b : Nat} {p q : ℚ} (ha : Nearest a p) (hb : Nearest b q) (h : p ≤ q) : a ≤ b := by
  by_contra hlt
  have hless := strictMono_magnitude (Nat.not_le.1 hlt)
  have hlow := sq_le_sq.2 (ha.closest b hb.le_infinity)
  have hhigh := sq_le_sq.2 (hb.closest a ha.le_infinity)
  -- both numbers would have to lie halfway between the two ranks
  have hp : magnitude a + magnitude b ≤ 2 * p := by nlinarith
  have hq : 2 * q ≤ magnitude a + magnitude b := by nlinarith
  have heq : p = q := by linarith
  exact hlt (ha.unique (heq ▸ hb)).le

theorem readsBack_iff {rank : Nat} {d : Decimal} : readsBack rank d = true ↔ Nearest rank d.value := by
  have hnearest := nearest_decimalRank d.digits d.exponent
  rw [readsBack, beq_iff_eq]
  exact ⟨fun h => h ▸ hnearest, fun h => hnearest.unique h⟩

/-- the decimals that read back lie around the magnitude without a gap -/
theorem readsBack_of_between {rank : Nat} (hrank : rank ≤ infinityRank) {d d' : Decimal} (hd : readsBack rank d = true)
    (h : d.value ≤ d'.value ∧ d'.value ≤ magnitude rank ∨ magnitude rank ≤ d'.value ∧ d'.value ≤ d.value) :
    readsBack rank d' = true := by
  rw [readsBack_iff] at hd
  have hself := nearest_magnitude hrank
  have hnearest := nearest_decimalRank d'.digits d'.exponent
  rw [readsBack, beq_iff_eq]
  rcases h with ⟨hlow, hhigh⟩ | ⟨hlow, hhigh⟩
  · exact Nat.le_antisymm (hnearest.mono hself hhigh) (hd.mono hnearest hlow)
  · exact Nat.le_antisymm (hnearest.mono hd hhigh) (hself.mono hnearest hlow)

/-- the larger of two magnitudes is at most `2 ^ 53` times their difference -/
theorem units_le_gap {a b : Nat} (h : a < b) : units b + 2 * binade * units a ≤ 2 * binade * units b := by
  obtain ⟨previous, rfl⟩ := Nat.exists_eq_add_one_of_ne_zero (Nat.ne_zero_of_lt h)
  obtain ⟨k, significand, hprevious, hlt, hnormal⟩ := exists_shift previous
  have hless : units a ≤ units previous := strictMono_units.monotone (Nat.le_of_lt_succ h)
  rw [hprevious, units_shift (Nat.le_of_lt hlt) hnormal] at hless
  rw [hprevious, Nat.add_assoc, units_shift hlt (hnormal.imp_right Nat.le_succ_of_le)]
  calc (significand + 1) * 2 ^ k + 2 * binade * units a ≤ 2 * binade * 2 ^ k + 2 * binade * (significand * 2 ^ k) := by
        gcongr
        exact hlt
    _ = 2 * binade * ((significand + 1) * 2 ^ k) := by ring

/-- a rank is the nearest one if the number is off by less than a part in `2 ^ 54` -/
theorem nearest_of_lt {rank : Nat} (hrank : rank ≤ infinityRank) {q : ℚ}
    (h : 4 * binade * |q - magnitude rank| < magnitude rank) : Nearest rank q := by
  have hgap : ∀ {a b : Nat}, a < b → magnitude b ≤ 2 * binade * (magnitude b - magnitude a) := by
    intro a b hlt
    have hcast : ((units b + 2 * binade * units a : Nat) : ℚ) ≤ ((2 * binade * units b : Nat) : ℚ) :=
      Nat.cast_le.2 (units_le_gap hlt)
    push_cast at hcast
    rw [magnitude, magnitude, ← sub_div, mul_div_assoc', div_le_div_iff_of_pos_right one_pos]
    linarith
  have hbinade : (0 : ℚ) < binade := Nat.cast_pos.2 binade_pos
  have hfar : ∀ other ≠ rank, |magnitude rank - q| < |magnitude other - q| := by
    intro other hne
    have hdistance : magnitude rank ≤ 2 * binade * |magnitude other - magnitude rank| := by
      rcases Nat.lt_or_gt_of_ne hne with hlt | hgt
      · rw [abs_sub_comm]
        exact (hgap hlt).trans (mul_le_mul_of_nonneg_left (le_abs_self _) (by positivity))
      · refine (strictMono_magnitude hgt).le.trans ((hgap hgt).trans ?_)
        exact mul_le_mul_of_nonneg_left (le_abs_self _) (by positivity)
    have htriangle := abs_sub_le (magnitude other) q (magnitude rank)
    rw [abs_sub_comm (magnitude rank)]
    nlinarith
  refine ⟨hrank, fun other _ => ?_, fun other _ hne heq => absurd heq.symm (hfar other hne).ne⟩
  by_cases hne : other = rank
  · rw [hne]
  · exact (hfar other hne).le

/-! ## The neighbours on a grid -/

/-- the largest decimal on the grid with step `10 ^ exponent` that is not above the rank's magnitude -/
def gridBelow (rank : Nat) (exponent : Int) : Decimal := ⟨(onGrid rank exponent).1 / (onGrid rank exponent).2, exponent⟩

/-- the next decimal on the grid -/
def gridAbove (rank : Nat) (exponent : Int) : Decimal := ⟨(gridBelow rank exponent).digits + 1, exponent⟩

section

variable {tie : Tie} {rank : Nat} {exponent : Int} {d : Decimal}

theorem onGrid_spec (rank : Nat) (exponent : Int) : 0 < (onGrid rank exponent).2 ∧
    ((onGrid rank exponent).1 / (onGrid rank exponent).2 : ℚ) * 10 ^ exponent = magnitude rank := by
  have hone : 0 < one := Nat.cast_pos.1 one_pos
  unfold onGrid magnitude
  split
  · rename_i h
    obtain ⟨k, rfl⟩ := Int.eq_ofNat_of_zero_le h
    refine ⟨Nat.mul_pos hone (Nat.pow_pos (by decide)), ?_⟩
    rw [Int.toNat_natCast, zpow_natCast, Nat.pow_eq, Nat.cast_mul, Nat.cast_pow, Nat.cast_ofNat, div_mul_eq_mul_div]
    exact mul_div_mul_right _ _ (by positivity)
  · rename_i h
    obtain ⟨k, hk⟩ := Int.eq_ofNat_of_zero_le (a := -exponent) (by omega)
    dsimp only
    refine ⟨hone, ?_⟩
    rw [← neg_neg exponent, hk, neg_neg, Int.toNat_natCast, zpow_neg, zpow_natCast, Nat.pow_eq, Nat.cast_mul,
      Nat.cast_pow, Nat.cast_ofNat, div_mul_eq_mul_div]
    rw [mul_inv_cancel_right₀ (by positivity)]

theorem grid_bounds (rank : Nat) (exponent : Int) :
    (gridBelow rank exponent).value ≤ magnitude rank ∧ magnitude rank < (gridAbove rank exponent).value := by
  obtain ⟨hden, hmagnitude⟩ := onGrid_spec rank exponent
  have hstep := ten_zpow_pos exponent
  have hrest : ((onGrid rank exponent).1 % (onGrid rank exponent).2 : Nat) / ((onGrid rank exponent).2 : ℚ) < 1 := by
    rw [div_lt_one (Nat.cast_pos.2 hden)]
    exact Nat.cast_lt.2 (Nat.mod_lt _ hden)
  constructor
  · rw [← hmagnitude, Decimal.value, gridBelow]
    exact mul_le_mul_of_nonneg_right Nat.cast_div_le hstep.le
  · rw [← hmagnitude, div_eq_add_mod_div _ hden, Decimal.value, gridAbove, gridBelow, Nat.cast_add, Nat.cast_one]
    exact mul_lt_mul_of_pos_right (add_lt_add_right hrest _) hstep

theorem gridAbove_value (rank : Nat) (exponent : Int) :
    (gridAbove rank exponent).value = (gridBelow rank exponent).value + 10 ^ exponent := by
  rw [Decimal.value, Decimal.value, gridAbove, gridBelow, Nat.cast_add, Nat.cast_one]
  ring

/-- no decimal on a grid stands between the magnitude and its neighbours -/
theorem le_gridBelow_or_gridAbove_le (rank : Nat) (h : exponent ≤ d.exponent) :
    d.value ≤ (gridBelow rank exponent).value ∨ (gridAbove rank exponent).value ≤ d.value := by
  obtain ⟨n, hn⟩ := Decimal.exists_value_eq h
  have hstep := ten_zpow_pos exponent
  rw [hn, Decimal.value, Decimal.value]
  rcases Nat.lt_or_ge (gridBelow rank exponent).digits n with hlt | hge
  · right
    exact mul_le_mul_of_nonneg_right (Nat.cast_le.2 (Nat.succ_le_of_lt hlt)) hstep.le
  · left
    exact mul_le_mul_of_nonneg_right (Nat.cast_le.2 hge) hstep.le

theorem onStep_isSome_iff : (onStep tie rank exponent).isSome = true ↔
    readsBack rank (gridBelow rank exponent) = true ∨ readsBack rank (gridAbove rank exponent) = true := by
  unfold onStep gridAbove gridBelow
  dsimp only
  rw [List.find?_isSome]
  split
  · simp
  · simp [or_comm]

theorem of_onStep (h : onStep tie rank exponent = some d) :
    readsBack rank d = true ∧ (d = gridBelow rank exponent ∨ d = gridAbove rank exponent) := by
  unfold onStep at h
  dsimp only at h
  refine ⟨List.find?_some h, ?_⟩
  have hmem := List.mem_of_find?_eq_some h
  split at hmem
  · simpa [gridAbove, gridBelow] using hmem
  · simpa [gridAbove, gridBelow, or_comm] using hmem

/-- if any decimal on a grid reads back, then one next to the magnitude does -/
theorem onStep_isSome (hrank : rank ≤ infinityRank) (h : exponent ≤ d.exponent) (hd : readsBack rank d = true) :
    (onStep tie rank exponent).isSome = true := by
  obtain ⟨hbelow, habove⟩ := grid_bounds rank exponent
  rw [onStep_isSome_iff]
  rcases le_gridBelow_or_gridAbove_le rank h with hle | hge
  · exact .inl (readsBack_of_between hrank hd (.inl ⟨hle, hbelow⟩))
  · exact .inr (readsBack_of_between hrank hd (.inr ⟨habove.le, hge⟩))

/-! ## From grid to grid -/

/-- the digits before the point of a fraction that is moved by `k` places tell how large the fraction is -/
theorem div_bounds {num den k : Nat} (hden : 0 < den) (hne : num * Nat.pow 10 k / den ≠ 0) :
    (10 : ℚ) ^ (((Nat.toDigits 10 (num * Nat.pow 10 k / den)).length : Int) - 1 - k) ≤ num / den ∧
      (num / den : ℚ) < 10 ^ (((Nat.toDigits 10 (num * Nat.pow 10 k / den)).length : Int) - k) := by
  rw [Nat.pow_eq] at hne ⊢
  have hpower : (0 : ℚ) < 10 ^ k := by positivity
  have hscaled : ((num * 10 ^ k : Nat) : ℚ) / den = num / den * 10 ^ k := by
    rw [Nat.cast_mul, Nat.cast_pow, Nat.cast_ofNat, mul_div_right_comm]
  have hfloor : (num / den * 10 ^ k : ℚ) < (num * 10 ^ k / den : Nat) + 1 := by
    rw [← hscaled, div_eq_add_mod_div _ hden, add_lt_add_iff_left, div_lt_one (Nat.cast_pos.2 hden)]
    exact Nat.cast_lt.2 (Nat.mod_lt _ hden)
  obtain ⟨hlow, hhigh⟩ := decimal_bounds hne 0
  rw [zpow_zero, mul_one, Int.add_zero] at hlow hhigh
  generalize (Nat.toDigits 10 (num * 10 ^ k / den)).length = length at hlow hhigh ⊢
  rw [zpow_sub₀ (by norm_num) _ (k : Int), zpow_sub₀ (by norm_num) _ (k : Int), zpow_natCast _ k,
    div_le_iff₀ hpower, lt_div_iff₀ hpower]
  refine ⟨hlow.trans (Nat.cast_div_le.trans hscaled.le), hfloor.trans_le ?_⟩
  rw [zpow_natCast] at hhigh ⊢
  exact_mod_cast hhigh

theorem leadingExponent_bounds (hne : rank ≠ 0) :
    (10 : ℚ) ^ leadingExponent rank ≤ magnitude rank ∧ magnitude rank < 10 ^ (leadingExponent rank + 1) := by
  have hone : 0 < one := Nat.cast_pos.1 one_pos
  have hlarge : one ≤ Nat.pow 10 400 := by decide +kernel
  have hunits : 0 < units rank := strictMono_units (Nat.pos_of_ne_zero hne)
  have hpos : units rank * Nat.pow 10 400 / one ≠ 0 :=
    Nat.pos_iff_ne_zero.1 (Nat.div_pos (hlarge.trans (Nat.le_mul_of_pos_left _ hunits)) hone)
  have hbounds := div_bounds hone hpos
  unfold leadingExponent magnitude
  generalize ((Nat.toDigits 10 (units rank * Nat.pow 10 400 / one)).length : Int) = length at hbounds ⊢
  rwa [Nat.cast_ofNat, (by omega : length - 1 - 400 = length - 401), (by omega : length - 400 = length - 401 + 1)]
    at hbounds

/-- seventeen digits are enough -/
theorem onStep_seventeen (tie : Tie) (hrank : rank ≤ infinityRank) (hne : rank ≠ 0) :
    (onStep tie rank (leadingExponent rank - 16)).isSome = true := by
  have hleading := (leadingExponent_bounds hne).1
  obtain ⟨hbelow, habove⟩ := grid_bounds rank (leadingExponent rank - 16)
  have hvalue := gridAbove_value rank (leadingExponent rank - 16)
  have hstep : (10 : ℚ) ^ (leadingExponent rank - 16) * 10 ^ 16 ≤ magnitude rank := by
    rw [← zpow_natCast, ← zpow_add₀ (by norm_num)]
    simpa using hleading
  have hpos := ten_zpow_pos (leadingExponent rank - 16)
  have hbinade : (binade : ℚ) = 4503599627370496 := by norm_num [binade]
  rw [onStep_isSome_iff, readsBack_iff, readsBack_iff]
  generalize (10 : ℚ) ^ (leadingExponent rank - 16) = step at hvalue hstep hpos
  -- the nearer neighbour is at most half a step away
  rcases le_total (magnitude rank - (gridBelow rank (leadingExponent rank - 16)).value) (step / 2) with hnear | hnear
  · left
    apply nearest_of_lt hrank
    rw [abs_of_nonpos (by linarith), hbinade]
    linarith
  · right
    apply nearest_of_lt hrank
    rw [abs_of_pos (by linarith), hbinade]
    linarith

/-- if a grid has a hit, then the result comes from this grid or from an earlier one -/
theorem exists_shortestFrom_eq {n grids : Nat} (hn : n < grids)
    (h : (onStep tie rank (exponent - n)).isSome = true) :
    ∃ m ≤ n, onStep tie rank (exponent - m) = some (shortestFrom tie rank exponent grids) := by
  induction grids generalizing n exponent with
  | zero => exact absurd hn (Nat.not_lt_zero n)
  | succ grids ih =>
    rw [shortestFrom]
    cases hfirst : onStep tie rank exponent with
    | some d => exact ⟨0, Nat.zero_le n, by simpa using hfirst⟩
    | none =>
      cases n with
      | zero => simp [hfirst] at h
      | succ n =>
        have hshift : ∀ k : Nat, exponent - (k + 1 : Nat) = exponent - 1 - k := by omega
        rw [hshift] at h
        obtain ⟨m, hm, hhit⟩ := ih (Nat.lt_of_succ_lt_succ hn) h
        exact ⟨m + 1, Nat.succ_le_succ hm, by rwa [hshift]⟩

/-- on the grid with `n + 1` digits the neighbours of the magnitude have no more, but for a power of ten -/
theorem digits_le_of_onStep {n : Nat} (hne : rank ≠ 0) (h : onStep tie rank (leadingExponent rank - n) = some d) :
    d.digits ≤ 10 ^ (n + 1) := by
  have hstep := ten_zpow_pos (leadingExponent rank - n)
  have hbelow := (grid_bounds rank (leadingExponent rank - n)).1.trans_lt (leadingExponent_bounds hne).2
  have hsplit : leadingExponent rank + 1 = ((n + 1 : Nat) : Int) + (leadingExponent rank - n) := by omega
  rw [hsplit, zpow_add₀ (by norm_num), zpow_natCast, Decimal.value] at hbelow
  have hdigits : (gridBelow rank (leadingExponent rank - n)).digits < 10 ^ (n + 1) := by
    exact_mod_cast lt_of_mul_lt_mul_right hbelow hstep.le
  rcases (of_onStep h).2 with rfl | rfl
  · exact hdigits.le
  · exact hdigits

theorem le_value_of_onStep {n : Nat} (hne : rank ≠ 0) (h : onStep tie rank (leadingExponent rank - n) = some d) :
    10 ^ leadingExponent rank ≤ d.value := by
  have hstep := ten_zpow_pos (leadingExponent rank - n)
  have hvalue := gridAbove_value rank (leadingExponent rank - n)
  obtain ⟨hlow, -⟩ := leadingExponent_bounds hne
  obtain ⟨-, hhigh⟩ := grid_bounds rank (leadingExponent rank - n)
  have hone : Decimal.value ⟨1, leadingExponent rank⟩ = 10 ^ leadingExponent rank := by simp [Decimal.value]
  have hbelow : 10 ^ leadingExponent rank ≤ (gridBelow rank (leadingExponent rank - n)).value := by
    rw [← hone]
    refine (le_gridBelow_or_gridAbove_le rank (d := ⟨1, leadingExponent rank⟩) ?_).resolve_right ?_
    · exact Int.sub_le_self _ (Int.natCast_nonneg n)
    · rw [hone]
      exact not_le.2 (hlow.trans_lt hhigh)
  rcases (of_onStep h).2 with rfl | rfl
  · exact hbelow
  · linarith

/-- a decimal of `n + 1` digits that reads back means a hit on the grid with `n + 1` digits -/
theorem onStep_isSome_of_length {n : Nat} (hrank : rank ≤ infinityRank) (hne : rank ≠ 0)
    (hd : readsBack rank d = true) (hlength : d.digitChars.length ≤ n + 1) :
    (onStep tie rank (leadingExponent rank - n)).isSome = true := by
  by_cases hexponent : leadingExponent rank - n ≤ d.exponent
  · exact onStep_isSome hrank hexponent hd
  · -- the decimal lies below the power of ten with the first digit of the magnitude, so that power reads back
    have hzero : d.digits ≠ 0 := by
      intro hzero
      rw [readsBack, hzero, beq_iff_eq, decimalRank, if_pos (.inl rfl)] at hd
      exact hne hd.symm
    have hone : Decimal.value ⟨1, leadingExponent rank⟩ = 10 ^ leadingExponent rank := by simp [Decimal.value]
    have hbelow : d.value ≤ 10 ^ leadingExponent rank := by
      refine (Decimal.value_bounds hzero).2.le.trans (zpow_le_zpow_right₀ (by norm_num) ?_)
      rw [Decimal.leading]
      omega
    have hread : readsBack rank ⟨1, leadingExponent rank⟩ = true := by
      refine readsBack_of_between hrank hd (.inl ?_)
      rw [hone]
      exact ⟨hbelow, (leadingExponent_bounds hne).1⟩
    exact onStep_isSome hrank (Int.sub_le_self _ (Int.natCast_nonneg n)) hread

theorem exists_onStep_eq {n : Nat} (hne : rank ≠ 0) (hn : n < 17)
    (h : (onStep tie rank (leadingExponent rank - n)).isSome = true) :
    ∃ m ≤ n, ∃ d, onStep tie rank (leadingExponent rank - m) = some d ∧ shortest tie rank = d.strip := by
  obtain ⟨m, hm, hhit⟩ := exists_shortestFrom_eq hn h
  exact ⟨m, hm, _, hhit, by rw [shortest, if_neg hne]⟩

theorem length_shortest_le {n : Nat} (hne : rank ≠ 0) (hn : n < 17)
    (h : (onStep tie rank (leadingExponent rank - n)).isSome = true) :
    (shortest tie rank).digitChars.length ≤ n + 1 := by
  obtain ⟨m, hm, d, hd, hshortest⟩ := exists_onStep_eq hne hn h
  have hlength := Decimal.length_digitChars_le_iff.2 (Decimal.strip_digits_lt (digits_le_of_onStep hne hd))
  rw [hshortest]
  omega

/-! ## The result -/

@[simp] theorem shortest_zero (tie : Tie) : shortest tie 0 = ⟨0, 0⟩ := if_pos rfl

theorem nearest_shortest (tie : Tie) (hrank : rank ≤ infinityRank) : Nearest rank (shortest tie rank).value := by
  by_cases hne : rank = 0
  · rw [hne, shortest_zero]
    exact nearest_decimalRank 0 0
  · obtain ⟨m, -, d, hd, hshortest⟩ := exists_onStep_eq hne (by decide) (onStep_seventeen tie hrank hne)
    rw [hshortest, Decimal.value_strip]
    exact readsBack_iff.1 (of_onStep hd).1

theorem le_value_shortest (tie : Tie) (hrank : rank ≤ infinityRank) (hne : rank ≠ 0) :
    10 ^ leadingExponent rank ≤ (shortest tie rank).value := by
  obtain ⟨m, -, d, hd, hshortest⟩ := exists_onStep_eq hne (by decide) (onStep_seventeen tie hrank hne)
  rw [hshortest, Decimal.value_strip]
  exact le_value_of_onStep hne hd

theorem digits_shortest_ne_zero (tie : Tie) (hrank : rank ≤ infinityRank) (hne : rank ≠ 0) :
    (shortest tie rank).digits ≠ 0 := by
  intro hzero
  have hvalue := le_value_shortest tie hrank hne
  rw [Decimal.value, hzero, Nat.cast_zero, zero_mul] at hvalue
  exact absurd hvalue (not_le.2 (ten_zpow_pos _))

/--
**The decimal that is found is a shortest one that reads back.** It reads back, it does not end in a zero unless it is
zero, and whatever decimal reads back has at least as many digits.
-/
theorem shortest_spec (tie : Tie) (hrank : rank ≤ infinityRank) :
    readsBack rank (shortest tie rank) = true ∧
      (shortest tie rank = ⟨0, 0⟩ ∨ (shortest tie rank).digits % 10 ≠ 0) ∧
      ∀ d, readsBack rank d = true → (shortest tie rank).digitChars.length ≤ d.digitChars.length := by
  refine ⟨readsBack_iff.2 (nearest_shortest tie hrank), ?_⟩
  by_cases hne : rank = 0
  · rw [hne, shortest_zero]
    exact ⟨.inl rfl, fun d _ => d.length_digitChars_pos⟩
  have hseventeen := onStep_seventeen tie hrank hne
  constructor
  · obtain ⟨m, -, d, -, hshortest⟩ := exists_onStep_eq hne (by decide) hseventeen
    have hdigits := digits_shortest_ne_zero tie hrank hne
    rw [hshortest] at hdigits ⊢
    exact .inr (Decimal.strip_digits_mod fun hzero => hdigits (Nat.le_zero.1 (hzero ▸ d.strip_digits_le)))
  · intro d hd
    obtain ⟨n, hn⟩ := Nat.exists_eq_add_one_of_ne_zero (Nat.ne_of_gt d.length_digitChars_pos)
    rw [hn]
    by_cases hsmall : n < 17
    · exact length_shortest_le hne hsmall (onStep_isSome_of_length hrank hne hd hn.le)
    · exact (length_shortest_le hne (by decide) hseventeen).trans (Nat.le_succ_of_le (Nat.not_lt.1 hsmall))

/-! ## The exponent of the first digit -/

/-- where a power of ten is rounded up, the first digit tells whether a magnitude has reached it -/
theorem le_leading_iff (tie : Tie) (hrank : rank ≤ infinityRank) (hne : rank ≠ 0) {k : Int}
    (hk : 10 ^ k ≤ magnitude (decimalRank 1 k)) : k ≤ (shortest tie rank).leading ↔ 10 ^ k ≤ magnitude rank := by
  obtain ⟨hlow, hhigh⟩ := Decimal.value_bounds (digits_shortest_ne_zero tie hrank hne)
  constructor
  · intro h
    have hvalue := (zpow_le_zpow_right₀ (by norm_num) h).trans hlow
    have hpower := nearest_decimalRank 1 k
    rw [Nat.cast_one, one_mul] at hpower
    exact hk.trans (strictMono_magnitude.monotone (hpower.mono (nearest_shortest tie hrank) hvalue))
  · intro h
    have hleading := h.trans_lt (leadingExponent_bounds hne).2
    have hvalue := (le_value_shortest tie hrank hne).trans_lt hhigh
    rw [zpow_lt_zpow_iff_right₀ (by norm_num)] at hleading hvalue
    omega

/-- the exponent of the first digit of a finite number is small -/
theorem leading_bounds (tie : Tie) (hrank : rank < infinityRank) :
    -331 ≤ (shortest tie rank).leading ∧ (shortest tie rank).leading ≤ 309 := by
  by_cases hne : rank = 0
  · rw [hne, shortest_zero]
    decide
  · have hread := readsBack_iff.2 (nearest_shortest tie hrank.le)
    rw [readsBack, beq_iff_eq, decimalRank] at hread
    rw [Decimal.leading, Decimal.digitChars]
    split_ifs at hread with hsmall hlarge
    · exact absurd hread.symm hne
    · exact absurd hread hrank.ne'
    · omega
    · omega

end

end Binary64

end StubTemplate
