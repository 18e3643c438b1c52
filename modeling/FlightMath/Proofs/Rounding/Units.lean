import FlightMath.Binary.Format
import Mathlib

/-! # Rounding to the nearest grid point

`FloatFormat.roundUnits` rounds a quotient of natural numbers. Its result depends on the quotient
alone, is a grid point, and no grid point is nearer to the quotient. A bound by a grid point
therefore survives rounding, in either direction.
-/

namespace FlightMath

/-- The rounded quotient does not depend on how the fraction is written. -/
theorem roundHalfEven_mul_right (num den : ℕ) {factor : ℕ} (positive : 0 < factor) :
    roundHalfEven (num * factor) (den * factor) = roundHalfEven num den := by
  have below : 2 * (num % den * factor) < den * factor ↔ 2 * (num % den) < den := by
    rw [← Nat.mul_assoc, Nat.mul_lt_mul_right positive]
  have above : den * factor < 2 * (num % den * factor) ↔ den < 2 * (num % den) := by
    rw [← Nat.mul_assoc, Nat.mul_lt_mul_right positive]
  simp only [roundHalfEven, Nat.mul_div_mul_right _ _ positive, Nat.mul_mod_mul_right, below, above]

namespace FloatFormat

variable (F : FloatFormat)

theorem roundUnits_mul_right (num den : ℕ) {factor : ℕ} (positive : 0 < factor) :
    F.roundUnits (num * factor) (den * factor) = F.roundUnits num den := by
  simp only [roundUnits, Nat.mul_div_mul_right _ _ positive, Nat.mul_right_comm den factor,
    roundHalfEven_mul_right _ _ positive]

/-- Two ways to write one quotient round alike. -/
theorem roundUnits_congr {num den num' den' : ℕ} (positive : 0 < den) (positive' : 0 < den')
    (same : num * den' = num' * den) : F.roundUnits num den = F.roundUnits num' den' := by
  rw [← F.roundUnits_mul_right num den positive', same, Nat.mul_comm den den',
    F.roundUnits_mul_right num' den' positive]

/-- A magnitude on the grid of the format, which has no upper limit. -/
def OnGrid (units : ℕ) : Prop :=
  2 ^ F.shift units ∣ units

theorem onGrid_roundUnits (num den : ℕ) : F.OnGrid (F.roundUnits num den) :=
  F.shift_dvd_roundUnits num den

/-- A multiple of `2 ^ low` that leaves at most `precision` bits above them is on the grid. -/
theorem onGrid_mul_two_pow {significand : ℕ} (low : ℕ) (bounded : significand ≤ 2 ^ F.precision) :
    F.OnGrid (significand * 2 ^ low) := by
  have positive := F.precision_pos
  rcases Nat.eq_or_lt_of_le bounded with full | strict
  · subst full
    rw [OnGrid, ← Nat.pow_add, shift, Nat.log2_two_pow]
    exact Nat.pow_dvd_pow 2 (by omega)
  · have small : significand * 2 ^ low < 2 ^ (F.precision + low) := by
      rw [Nat.pow_add]
      exact Nat.mul_lt_mul_of_pos_right strict (Nat.two_pow_pos _)
    exact Nat.dvd_trans (Nat.pow_dvd_pow 2 (F.shift_le_of_lt small)) (Nat.dvd_mul_left _ _)

/-- From `2 ^ (precision - 1 + low)` on, a grid point is a multiple of `2 ^ low`. -/
theorem OnGrid.dvd {F : FloatFormat} {units low : ℕ} (grid : F.OnGrid units)
    (large : 2 ^ (F.precision - 1 + low) ≤ units) : 2 ^ low ∣ units := by
  have nonzero : units ≠ 0 := (Nat.lt_of_lt_of_le (Nat.two_pow_pos _) large).ne'
  have bits := (Nat.le_log2 nonzero).mpr large
  have positive := F.precision_pos
  exact Nat.dvd_trans (Nat.pow_dvd_pow 2 (by unfold shift; omega)) grid

/-- The rounded magnitude is within half a spacing of the quotient. -/
theorem abs_roundUnits_sub_le (num : ℕ) {den : ℕ} (positive : 0 < den) :
    |(F.roundUnits num den : ℚ) - num / den| ≤ 2 ^ F.shift (num / den) / 2 := by
  have scaled : 0 < den * 2 ^ F.shift (num / den) := Nat.mul_pos positive (Nat.two_pow_pos _)
  obtain ⟨upper, lower⟩ := roundHalfEven_nearest num scaled
  unfold roundUnits
  dsimp only
  generalize F.shift (num / den) = low at *
  generalize roundHalfEven num (den * 2 ^ low) = significand at *
  have denominator : (0 : ℚ) < den := by exact_mod_cast positive
  have upper' : 2 * ((significand : ℚ) * (den * 2 ^ low)) ≤ 2 * num + den * 2 ^ low := by
    exact_mod_cast upper
  have lower' : 2 * (num : ℚ) ≤ 2 * (significand * (den * 2 ^ low)) + den * 2 ^ low := by
    exact_mod_cast lower
  have error : ((significand * 2 ^ low : ℕ) : ℚ) - num / den =
      (significand * (den * 2 ^ low) - num) / den := by
    push_cast
    field_simp
  rw [error, abs_div, abs_of_pos denominator, div_le_iff₀ denominator, abs_le]
  constructor <;> linarith

/-- Below `2 ^ (precision + low)` the rounded magnitude is within half of `2 ^ low`. -/
theorem abs_roundUnits_sub_le_of_lt {num den low : ℕ} (positive : 0 < den)
    (bounded : num < 2 ^ (F.precision + low) * den) :
    |(F.roundUnits num den : ℚ) - num / den| ≤ 2 ^ low / 2 := by
  have small : F.shift (num / den) ≤ low :=
    F.shift_le_of_lt ((Nat.div_lt_iff_lt_mul positive).mpr bounded)
  refine (F.abs_roundUnits_sub_le num positive).trans ?_
  gcongr
  norm_num

/-- A grid point below the spacing of a quotient's binade is below the binade itself. -/
theorem OnGrid.lt_binade {F : FloatFormat} {units low : ℕ} (grid : F.OnGrid units)
    (coarse : ¬ 2 ^ low ∣ units) : units < 2 ^ (F.precision - 1 + low) := by
  by_contra large
  exact coarse (grid.dvd (Nat.le_of_not_lt large))

/-- No multiple of the spacing is nearer to a quotient than its rounding: different multiples are a
whole spacing apart, and the rounding is within half of it. -/
private theorem abs_roundUnits_sub_le_of_dvd (num : ℕ) {den : ℕ} (positive : 0 < den) (other : ℕ) :
    |(F.roundUnits num den : ℚ) - num / den| ≤
      |((2 ^ F.shift (num / den) * other : ℕ) : ℚ) - num / den| := by
  have near := F.abs_roundUnits_sub_le num positive
  obtain ⟨significand, rounded⟩ : 2 ^ F.shift (num / den) ∣ F.roundUnits num den :=
    Nat.dvd_mul_left _ _
  rw [rounded] at near ⊢
  rcases eq_or_ne significand other with same | different
  · rw [same]
  · have apart : (1 : ℚ) ≤ |(significand : ℚ) - other| := by
      have whole : (1 : ℤ) ≤ |(significand : ℤ) - other| :=
        Int.one_le_abs (sub_ne_zero.mpr (by exact_mod_cast different))
      exact_mod_cast whole
    have step : (0 : ℚ) < 2 ^ F.shift (num / den) := by positivity
    have distance : |((2 ^ F.shift (num / den) * significand : ℕ) : ℚ) -
        ((2 ^ F.shift (num / den) * other : ℕ) : ℚ)| =
        2 ^ F.shift (num / den) * |(significand : ℚ) - other| := by
      push_cast
      rw [← mul_sub, abs_mul, abs_of_pos step]
    have triangle := abs_sub_le ((2 ^ F.shift (num / den) * significand : ℕ) : ℚ) (num / den)
      ((2 ^ F.shift (num / den) * other : ℕ) : ℚ)
    rw [distance, abs_sub_comm (num / den : ℚ)] at triangle
    nlinarith [mul_le_mul_of_nonneg_left apart step.le]

/-- A magnitude whose significand is full is at least the start of its binade. -/
private theorem two_pow_le_of_shift_ne_zero {units : ℕ} (full : F.shift units ≠ 0) :
    2 ^ (F.precision - 1 + F.shift units) ≤ units := by
  have positive := F.precision_pos
  have binade : F.precision - 1 + F.shift units = units.log2 := by
    unfold shift at full ⊢
    omega
  have nonzero : units ≠ 0 := by
    rintro rfl
    rw [shift, Nat.log2_zero] at full
    omega
  rw [binade]
  exact Nat.log2_self_le nonzero

/-- No grid point is nearer to a quotient than its rounding. One off the spacing lies below the
binade, which starts at a multiple. -/
theorem abs_roundUnits_sub_le_of_onGrid (num : ℕ) {den units : ℕ} (positive : 0 < den)
    (grid : F.OnGrid units) :
    |(F.roundUnits num den : ℚ) - num / den| ≤ |(units : ℚ) - num / den| := by
  by_cases aligned : 2 ^ F.shift (num / den) ∣ units
  · obtain ⟨other, rfl⟩ := aligned
    exact F.abs_roundUnits_sub_le_of_dvd num positive other
  · have below := grid.lt_binade aligned
    have full : F.shift (num / den) ≠ 0 := by
      intro zero
      rw [zero] at aligned
      exact aligned (Nat.one_dvd _)
    have start : ((2 ^ (F.precision - 1 + F.shift (num / den)) : ℕ) : ℚ) ≤ num / den :=
      le_trans (by exact_mod_cast F.two_pow_le_of_shift_ne_zero full) Nat.cast_div_le
    have unitsLe : (units : ℚ) ≤ (2 ^ (F.precision - 1 + F.shift (num / den)) : ℕ) := by
      exact_mod_cast below.le
    have bound := F.abs_roundUnits_sub_le_of_dvd num positive (2 ^ (F.precision - 1))
    rw [← Nat.pow_add, Nat.add_comm (F.shift _), abs_of_nonpos (sub_nonpos.mpr start)] at bound
    rw [abs_of_nonpos (sub_nonpos.mpr (unitsLe.trans start))]
    linarith

end FloatFormat

end FlightMath
