import FlightMath.Binary.SquareRoot
import FlightMath.Proofs.Rounding.Intervals

/-! # Rounded square roots

An inexact root is rounded as the midpoint of the integer root and its successor. The midpoint is
within half a unit of the true root, and no bound on the grid separates the two.
-/

namespace FlightMath

/-- Twice the number of units that a root is rounded from. -/
def doubledRoot (square : ℕ) : ℕ :=
  2 * floorSqrt square + if floorSqrt square * floorSqrt square = square then 0 else 1

private theorem doubledRoot_le {square limit : ℕ} (le : square ≤ limit * limit) :
    doubledRoot square ≤ 2 * limit := by
  have lower := (floorSqrt_bounds square).1
  have root : floorSqrt square ≤ limit := Nat.mul_self_le_mul_self_iff.mp (lower.trans le)
  unfold doubledRoot
  split
  · omega
  · next inexact =>
    have different : floorSqrt square ≠ limit := by
      intro same
      exact inexact (Nat.le_antisymm lower (same ▸ le))
    omega

private theorem abs_doubledRoot_sub_sqrt_le (square : ℕ) :
    |(doubledRoot square : ℝ) / 2 - Real.sqrt square| ≤ 1 / 2 := by
  obtain ⟨lower, upper⟩ := floorSqrt_bounds square
  unfold doubledRoot
  split
  · next exact =>
    have root : Real.sqrt square = floorSqrt square := by
      rw [← exact, Nat.cast_mul, Real.sqrt_mul_self (Nat.cast_nonneg _), exact]
    rw [root, Nat.add_zero, Nat.cast_mul, Nat.cast_two, mul_div_cancel_left₀ _ two_ne_zero,
      sub_self, abs_zero]
    norm_num
  · have below : (floorSqrt square : ℝ) ≤ Real.sqrt square := by
      apply Real.le_sqrt_of_sq_le
      rw [sq]
      exact_mod_cast lower
    have above : Real.sqrt square ≤ floorSqrt square + 1 := by
      refine Real.sqrt_le_iff.mpr ⟨by positivity, ?_⟩
      rw [sq]
      exact_mod_cast upper.le
    push_cast
    rw [abs_le]
    constructor <;> linarith

namespace Binary

open FloatFormat

variable {F : FloatFormat} {x : Binary F} {bound q : ℚ}

/-- The true root of a number of units, in units. -/
private theorem sqrt_units_div_scale (units : ℕ) :
    Real.sqrt ((units / F.scale : ℚ) : ℝ) =
      Real.sqrt ((units * 2 ^ F.unitExponent : ℕ) : ℝ) / F.scale := by
  have scale : (0 : ℝ) < F.scale := by exact_mod_cast F.scale_pos
  have square : ((units / F.scale : ℚ) : ℝ) =
      ((units * 2 ^ F.unitExponent : ℕ) : ℝ) / (F.scale : ℝ) ^ 2 := by
    rw [FloatFormat.scale] at scale ⊢
    push_cast at scale ⊢
    field_simp
  rw [square, Real.sqrt_div' _ (sq_nonneg _), Real.sqrt_sq scale.le]

/-- The root rounds a number within half a unit of the true root that is below every bound on the
grid whose square is above the argument. -/
theorem HasValue.rounds_sqrt (value : x.HasValue q) (nonneg : 0 ≤ q) :
    ∃ root : ℚ, x.sqrt.Rounds root ∧ 0 ≤ root ∧ |(root : ℝ) - Real.sqrt q| ≤ 1 / 2 / F.scale ∧
      ∀ {bound}, F.Grid bound → 0 ≤ bound → q ≤ bound ^ 2 → root ≤ bound := by
  have scale := F.scale_pos
  have scale' : (0 : ℝ) < F.scale := by exact_mod_cast scale
  obtain ⟨negative, units, fits, rfl, rfl⟩ := hasValue_iff.mp value
  by_cases zero : units = 0
  · subst zero
    rw [signed_zero, Int.cast_zero, zero_div]
    refine ⟨0, ?_, le_rfl, ?_, fun _ positive _ => positive⟩
    · show (Binary.zero negative).sqrt.Rounds 0
      rw [sqrt_zero, ← round_zero negative 1]
      refine rounds_round Nat.one_pos ?_
      rw [signed_zero, Int.cast_zero, zero_mul, zero_div]
    · rw [Rat.cast_zero, Real.sqrt_zero, sub_self, abs_zero]
      positivity
  cases negative with
  | true =>
    have units' : (0 : ℚ) < units := by exact_mod_cast Nat.pos_of_ne_zero zero
    have positive' := div_pos units' scale
    rw [signed, if_pos rfl, Int.cast_neg, Int.cast_natCast, neg_div] at nonneg
    linarith
  | false =>
    rw [signed, if_neg Bool.false_ne_true, Int.cast_natCast]
    rw [sqrt, if_neg zero, if_neg Bool.false_ne_true]
    refine ⟨doubledRoot (units * 2 ^ F.unitExponent) / 2 / F.scale,
      rounds_round Nat.two_pos ?_, by positivity, ?_, ?_⟩
    · rw [div_mul_cancel₀ _ scale.ne']
      rfl
    · rw [sqrt_units_div_scale]
      push_cast
      rw [← sub_div, abs_div, abs_of_pos scale']
      have near := abs_doubledRoot_sub_sqrt_le (units * 2 ^ F.unitExponent)
      push_cast at near
      gcongr
    · intro bound grid positive le
      obtain ⟨limit, _, magnitude⟩ := grid
      rw [abs_of_nonneg positive] at magnitude
      have square : units * 2 ^ F.unitExponent ≤ limit * limit := by
        rw [magnitude, div_pow, div_le_div_iff₀ scale (by positivity), sq (F.scale : ℚ),
          ← mul_assoc, mul_le_mul_iff_left₀ scale, sq] at le
        exact_mod_cast le
      have twice : (doubledRoot (units * 2 ^ F.unitExponent) : ℚ) ≤ 2 * limit := by
        exact_mod_cast doubledRoot_le square
      rw [magnitude, div_le_div_iff_of_pos_right scale]
      linarith

/-- The root is below every bound on the grid whose square is above the number. -/
theorem HasValue.sqrt_within (value : x.HasValue q) (nonneg : 0 ≤ q) (grid : F.Grid bound)
    (positive : 0 ≤ bound) (limited : bound ≤ F.largest) (le : q ≤ bound ^ 2) :
    x.sqrt.Within 0 bound := by
  obtain ⟨root, rounds, rootNonneg, -, rootLe⟩ := value.rounds_sqrt nonneg
  have upper := rootLe grid positive le
  have rounded := rounds.hasValue (abs_le.mpr ⟨by linarith, upper.trans limited⟩)
  exact rounded.within (F.nearest_nonneg rootNonneg) (nearest_le grid upper)

/-- Up to one the computed root is within a rounding of the true one. -/
theorem HasValue.abs_sqrt_sub_sqrt_le {x : Single} (value : x.HasValue q) (nonneg : 0 ≤ q)
    (le : q ≤ 1) : ∃ root : ℚ, x.sqrt.HasValue root ∧ |root| ≤ 1 ∧
      |(root : ℝ) - Real.sqrt q| ≤ 1 / 2 ^ 25 + 1 / 2 ^ 150 := by
  obtain ⟨exact, rounds, exactNonneg, near, exactLe⟩ := value.rounds_sqrt nonneg
  have bounded : |exact| ≤ 1 := abs_le.mpr ⟨by linarith, exactLe grid_one zero_le_one (by linarith)⟩
  have bounded' : |exact| ≤ 2 ^ (0 : ℤ) := by rwa [zpow_zero]
  have rounding := (Rat.cast_le (K := ℝ)).mpr (abs_single_nearest_sub_le (by norm_num) bounded')
  push_cast at rounding
  norm_num at rounding
  have largest : |exact| ≤ single.largest := by
    rw [single_largest]
    linarith
  refine ⟨single.nearest exact, rounds.hasValue largest, abs_nearest_le grid_one bounded, ?_⟩
  have unit : (1 : ℝ) / 2 / single.scale = 1 / 2 ^ 150 := by
    norm_num [scale, single]
  rw [unit] at near
  refine (abs_sub_le _ _ _).trans ((add_le_add rounding near).trans ?_)
  norm_num

end Binary

end FlightMath
