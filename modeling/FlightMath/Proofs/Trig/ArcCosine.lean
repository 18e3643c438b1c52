import FlightMath.Proofs.Trig.Accuracy
import FlightMath.Proofs.Trig.CubicFactor

/-! # Accuracy of the arc cosine

The computed arc cosine errs by what the cubic factor does in exact arithmetic and by the rounding
of the root, of the factor and of their product. The distance of a magnitude from one is exact above
one half, so the root does not magnify its error where it is steep. Below zero the reflection about
a rounded quarter turn adds its own error.
-/

namespace FlightMath

open FloatFormat Angle

variable {x : Single} {m q : ℚ}

/-! ## The factor -/

private theorem CubicFactor.cast_eval (p : CubicFactor) (m : ℚ) :
    ((p.eval m : ℚ) : ℝ) = p.eval (m : ℝ) := by
  simp only [eval, Rat.cast_id]
  push_cast
  rfl

/-- The computed coefficients stand for exact ones. -/
structure ArcCosineCoefficients.HasValue (c : ArcCosineCoefficients) (p : CubicFactor) : Prop where
  constant : c.constant.HasValue p.constant
  linear : c.linear.HasValue p.linear
  quadratic : c.quadratic.HasValue p.quadratic
  cubic : c.cubic.HasValue p.cubic

private theorem hasValue_arcCosineFactor : arcCosineCoefficients.HasValue arcCosineFactor :=
  have ⟨constant, linear, quadratic, cubic⟩ := hasValue_arcCosineCoefficients
  ⟨constant, linear, quadratic, cubic⟩

/-- The sizes of the coefficients, as far as rounding depends on them. -/
structure CubicFactor.Moderate (p : CubicFactor) : Prop where
  constant : |p.constant| ≤ 158 / 100
  linear : |p.linear| ≤ 22 / 100
  quadratic : |p.quadratic| ≤ 8 / 100
  cubic : |p.cubic| ≤ 1 / 32

private theorem moderate_arcCosineFactor : arcCosineFactor.Moderate := by
  constructor <;> norm_num [arcCosineFactor, abs_le]

/-- The computed factor, with its rounding error. -/
theorem roundedCubic_spec {c : ArcCosineCoefficients} {p : CubicFactor} (has : c.HasValue p)
    (moderate : p.Moderate) (value : x.HasValue m) (unit : |m| ≤ 1) :
    ∃ factor : ℚ, (c.constant + x * (c.linear + x * (c.quadratic + c.cubic * x))).HasValue factor ∧
      |factor - p.eval m| ≤ 16 / 10 ^ 8 ∧ |factor| ≤ 209 / 100 := by
  obtain ⟨constantLe, linearLe, quadraticLe, cubicLe⟩ := moderate
  obtain ⟨second, hasSecond, secondError, secondLe⟩ :
      ∃ v : ℚ, (c.quadratic + c.cubic * x).HasValue v ∧
        |v - (p.quadratic + p.cubic * m)| ≤ 5 / 10 ^ 9 ∧ |v| ≤ 12 / 100 := by
    have exact : |m - m| ≤ 0 := by rw [sub_self, abs_zero]
    obtain ⟨hasSum, error, size⟩ := hornerStep has.quadratic has.cubic value cubicLe exact (-5) (-3)
      (by norm_num; linarith) (by norm_num; linarith) (by norm_num) (by norm_num) (by norm_num)
    refine ⟨_, hasSum, error.trans (by norm_num), size.trans ?_⟩
    norm_num
    linarith
  obtain ⟨first, hasFirst, firstError, firstLe⟩ :
      ∃ v : ℚ, (c.linear + x * (c.quadratic + c.cubic * x)).HasValue v ∧
        |v - (p.linear + m * (p.quadratic + p.cubic * m))| ≤ 24 / 10 ^ 9 ∧ |v| ≤ 35 / 100 := by
    obtain ⟨hasSum, error, size⟩ := hornerStep has.linear value hasSecond unit secondError (-3) (-1)
      (by norm_num; linarith) (by norm_num; linarith) (by norm_num) (by norm_num) (by norm_num)
    refine ⟨_, hasSum, error.trans (by norm_num), size.trans ?_⟩
    norm_num
    linarith
  obtain ⟨hasSum, error, size⟩ := hornerStep has.constant value hasFirst unit firstError (-1) 2
    (by norm_num; linarith) (by norm_num; linarith) (by norm_num) (by norm_num) (by norm_num)
  refine ⟨_, hasSum, ?_, size.trans ?_⟩
  · simp only [CubicFactor.eval, Rat.cast_id]
    exact error.trans (by norm_num)
  · norm_num
    linarith

/-! ## The root -/

/-- Roots of numbers from a quarter on are no further apart than the numbers. -/
private theorem abs_sqrt_sub_sqrt_le {a b : ℝ} (left : 1 / 4 ≤ a) (right : 1 / 4 ≤ b) :
    |Real.sqrt a - Real.sqrt b| ≤ |a - b| := by
  have half : 1 / 2 ≤ Real.sqrt a := Real.le_sqrt_of_sq_le (by linarith)
  have half' : 1 / 2 ≤ Real.sqrt b := Real.le_sqrt_of_sq_le (by linarith)
  have squares : a - b = (Real.sqrt a - Real.sqrt b) * (Real.sqrt a + Real.sqrt b) := by
    linear_combination -Real.sq_sqrt (show 0 ≤ a by linarith) +
      Real.sq_sqrt (show 0 ≤ b by linarith)
  rw [squares, abs_mul, abs_of_pos (show 0 < Real.sqrt a + Real.sqrt b by linarith)]
  exact le_mul_of_one_le_right (abs_nonneg _) (by linarith)

/-- The rounded distance from one has a root near that of the exact one. From one half on it is
exact, as it needs no more bits than the magnitude. -/
private theorem abs_sqrt_nearest_one_sub_le (grid : single.Grid m) (nonneg : 0 ≤ m) (le : m ≤ 1) :
    |Real.sqrt (single.nearest (1 - m)) - Real.sqrt (1 - m)| ≤ 1 / 2 ^ 25 := by
  rcases lt_or_ge m (1 / 2) with below | above
  · have bounded : |1 - m| ≤ 2 ^ (0 : ℤ) := by
      rw [zpow_zero, abs_le]
      constructor <;> linarith
    have error := Binary.abs_single_nearest_sub_le (by norm_num) bounded
    norm_num at error
    have error' := abs_cast_sub_le error
    have below' : (m : ℝ) < ((1 / 2 : ℚ) : ℝ) := Rat.cast_lt.mpr below
    push_cast at error' below'
    have lower := (abs_le.mp error').1
    have root := abs_sqrt_sub_sqrt_le (show 1 / 4 ≤ (single.nearest (1 - m) : ℝ) by linarith)
      (show 1 / 4 ≤ (1 - m : ℝ) by linarith)
    exact (root.trans error').trans (by norm_num)
  · have one : IsMultiple (-24) 1 := ⟨2 ^ 24, by norm_num⟩
    have exact : single.Grid (1 - m) := by
      rw [← neg_sub]
      refine (grid_sub grid one (by norm_num) ?_ ?_).neg
      · rw [abs_of_nonneg nonneg]
        norm_num
        linarith
      · norm_num [abs_le]
        constructor <;> linarith
    rw [nearest_of_grid exact]
    push_cast
    rw [sub_self, abs_zero]
    positivity

/-! ## The arc cosine -/

/-- Between zero and one the computed product is near the arc cosine. They differ by the errors of
the product, the root, its argument, the factor and the approximation. -/
theorem abs_eval_sub_arccos_le (value : x.HasValue m) (nonneg : 0 ≤ m) (le : m ≤ 1) :
    ∃ angle : ℚ, (arcCosineCoefficients.eval x).HasValue angle ∧ 0 ≤ angle ∧ angle ≤ 2 ∧
      |(angle : ℝ) - Real.arccos m| ≤ 91 / 10 ^ 6 := by
  have unit : |m| ≤ 1 := abs_le.mpr ⟨by linarith, le⟩
  have range := arcCosineCoefficients_within value nonneg le
  have distance : |1 - m| ≤ 1 := abs_le.mpr ⟨by linarith, by linarith⟩
  have hasDistance := Binary.hasValue_one.sub value
    (Binary.single_le_largest (by norm_num) distance)
  obtain ⟨root, hasRoot, rootLe, rootError⟩ := hasDistance.abs_sqrt_sub_sqrt_le
    (single.nearest_nonneg (by linarith)) (nearest_le grid_one (by linarith))
  obtain ⟨factor, hasFactor, factorError, factorLe⟩ := roundedCubic_spec
    hasValue_arcCosineFactor moderate_arcCosineFactor value unit
  have product : |root * factor| ≤ 2 ^ (2 : ℤ) :=
    (abs_mul_le_mul rootLe factorLe).trans (by norm_num)
  have hasProduct := hasRoot.mul hasFactor (Binary.single_le_largest (by norm_num) product)
  have rounding := abs_cast_sub_le (Binary.abs_single_nearest_sub_le (by norm_num) product)
  have hasAngle : (arcCosineCoefficients.eval x).HasValue (single.nearest (root * factor)) :=
    hasProduct
  refine ⟨_, hasAngle, hasAngle.2 ▸ range.2.1, hasAngle.2 ▸ range.2.2, ?_⟩
  have nonneg' : (0 : ℝ) ≤ m := by exact_mod_cast nonneg
  have le' : (m : ℝ) ≤ 1 := by exact_mod_cast le
  have exactRoot : |Real.sqrt (1 - m)| ≤ 1 := by
    rw [abs_of_nonneg (Real.sqrt_nonneg _)]
    exact Real.sqrt_le_iff.mpr ⟨zero_le_one, by linarith⟩
  have factorError' := abs_cast_sub_le factorError
  have factorLe' : |(factor : ℝ)| ≤ ((209 / 100 : ℚ) : ℝ) := by exact_mod_cast factorLe
  rw [CubicFactor.cast_eval] at factorError'
  have split : ((single.nearest (root * factor) : ℚ) : ℝ) - Real.arccos m =
      (single.nearest (root * factor) - (root * factor : ℚ)) +
        ((root - Real.sqrt (single.nearest (1 - m))) +
          (Real.sqrt (single.nearest (1 - m)) - Real.sqrt (1 - m))) * factor +
        Real.sqrt (1 - m) * (factor - arcCosineFactor.eval (m : ℝ)) +
        (Real.sqrt (1 - m) * arcCosineFactor.eval (m : ℝ) - Real.arccos m) := by
    push_cast
    ring
  have rootErrors := (abs_add_le _ _).trans
    (add_le_add rootError (abs_sqrt_nearest_one_sub_le value.grid nonneg le))
  rw [split]
  refine (abs_add_le _ _).trans ((add_le_add (abs_add_three _ _ _)
    (abs_sqrt_mul_factor_sub_arccos_le nonneg' le')).trans ?_)
  refine (add_le_add (add_le_add (add_le_add rounding (abs_mul_le_mul rootErrors factorLe'))
    (abs_mul_le_mul exactRoot factorError')) le_rfl).trans ?_
  norm_num

/-- The computed arc cosine is within `1e-4` of the true one. -/
theorem abs_arcCosine_sub_arccos_le (value : x.HasValue q) (within : |q| ≤ 1) :
    ∃ angle : ℚ, (arcCosine x).HasValue angle ∧
      |(angle : ℝ) - Real.arccos q| ≤ 1 / 10 ^ 4 := by
  obtain ⟨angle, hasAngle, angleNonneg, angleLe, error⟩ :=
    abs_eval_sub_arccos_le value.abs (abs_nonneg q) within
  rw [arcCosine]
  simp only [value.lt_iff Binary.hasValue_zero]
  split
  · next negative =>
    have four : |piValue - angle| ≤ 2 ^ (2 : ℤ) := by
      norm_num [piValue, abs_le]
      constructor <;> linarith
    have rounding := abs_cast_sub_le (Binary.abs_single_nearest_sub_le (by norm_num) four)
    refine ⟨_, hasValue_pi.sub hasAngle (Binary.single_le_largest (by norm_num) four), ?_⟩
    obtain ⟨nonneg, le⟩ := piValue_sub_pi_bounds
    rw [abs_of_neg negative, Rat.cast_neg, Real.arccos_neg] at error
    have split : ((single.nearest (piValue - angle) : ℚ) : ℝ) - Real.arccos q =
        (single.nearest (piValue - angle) - (piValue - angle : ℚ)) + (piValue - Real.pi) -
          (angle - (Real.pi - Real.arccos q)) := by
      push_cast
      ring
    rw [split]
    refine (abs_sub _ _).trans ((add_le_add (abs_add_le _ _) error).trans ?_)
    rw [abs_of_nonneg nonneg]
    refine (add_le_add (add_le_add rounding le) le_rfl).trans ?_
    norm_num
  · next nonneg =>
    rw [abs_of_nonneg (not_lt.mp nonneg)] at error
    exact ⟨angle, hasAngle, error.trans (by norm_num)⟩

end FlightMath
