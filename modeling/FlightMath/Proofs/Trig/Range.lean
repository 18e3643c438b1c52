import FlightMath.Proofs.Rounding.Roots
import FlightMath.Proofs.Trig.Peak
import FlightMath.Trig.ArcCosine

/-! # Range of the sine, the cosine and the arc cosine

Every angle has a sine and a cosine between minus one and one: a rejected angle is answered with
zero, and an accepted one is folded to where the polynomial keeps to that range. So the arc cosine
of either is a root of a number between zero and one times a factor below two.
-/

namespace FlightMath

open FloatFormat Angle

/-! ## Sine and cosine -/

/-- The value of an accepted angle's sine is that of the polynomial at a reduced angle, which is
the angle less whole turns up to what unwinding loses. -/
theorem hasValue_sine {x : Single} {angle : ℚ} (mode : ApproxMode) (value : x.HasValue angle)
    (below : |angle| < 33) : ∃ (reduced : ℚ) (count : ℤ) (folded : Single),
      |reduced| ≤ piValue ∧
      |reduced - (angle - count * (2 * piValue))| ≤ ((count.natAbs - 1 : ℕ) : ℚ) / 2 ^ 21 ∧
      folded.HasValue (foldValue reduced) ∧
      (sine mode x).HasValue (mode.polynomial.roundedEval (foldValue reduced)) := by
  obtain ⟨whole, accepted, enough⟩ := exists_wholeRadians value below
  obtain ⟨reduced, count, -, principalValue, bounded, error⟩ :=
    exists_principal value (by linarith) enough
  have foldedValue := hasValue_fold principalValue bounded
  refine ⟨reduced, count, _, bounded, error, foldedValue, ?_⟩
  rw [sine, accepted]
  exact (roundedCorrection_spec mode foldedValue (abs_foldValue_le bounded)).1

theorem sine_within (mode : ApproxMode) (x : Single) : (sine mode x).Within (-1) 1 := by
  cases accepted : wholeRadians x with
  | error reason =>
    rw [sine_of_rejected mode accepted]
    exact Binary.hasValue_zero.within (by norm_num) (by norm_num)
  | ok whole =>
    obtain ⟨angle, value, below, -⟩ := hasValue_of_wholeRadians accepted
    obtain ⟨reduced, count, folded, bounded, -, foldedValue, result⟩ :=
      hasValue_sine mode value below
    have range := abs_le.mp (abs_roundedEval_le mode foldedValue (abs_foldValue_le bounded))
    exact result.within range.1 range.2

/-! ## Arc cosine -/

/-- Multiples of the last bit below four are on the grid. -/
theorem single_bounds {low high : ℚ} (lowMultiple : IsMultiple (-22) low)
    (highMultiple : IsMultiple (-22) high) (lower : -4 ≤ low) (ordered : low ≤ high)
    (upper : high ≤ 4) : Binary.Bounds single low high := by
  have grid : ∀ q : ℚ, IsMultiple (-22) q → |q| ≤ 4 → single.Grid q := by
    intro q multiple small
    refine multiple.grid (by decide) (small.trans ?_)
    norm_num [single]
  have small : |low| ≤ 4 := abs_le.mpr ⟨lower, by linarith⟩
  have small' : |high| ≤ 4 := abs_le.mpr ⟨by linarith, upper⟩
  exact ⟨grid low lowMultiple small, grid high highMultiple small',
    (abs_le.mp (Binary.single_le_largest (by norm_num) small)).1,
    (abs_le.mp (Binary.single_le_largest (by norm_num) small')).2⟩

/-- The exact coefficients of the cubic factor. -/
theorem hasValue_arcCosineCoefficients :
    arcCosineCoefficients.constant.HasValue (3294057 / 2 ^ 21) ∧
      arcCosineCoefficients.linear.HasValue (-3558689 / 2 ^ 24) ∧
      arcCosineCoefficients.quadratic.HasValue (9967143 / 2 ^ 27) ∧
      arcCosineCoefficients.cubic.HasValue (-628451 / 2 ^ 25) := by
  decide +kernel

variable {m : Single} {magnitude : ℚ}

private theorem bounds_zero_two : Binary.Bounds single 0 2 :=
  single_bounds ⟨0, by norm_num⟩ ⟨2 ^ 23, by norm_num⟩ (by norm_num) (by norm_num) (by norm_num)

private theorem sqrt_one_sub_within (value : m.HasValue magnitude) (nonneg : 0 ≤ magnitude)
    (le : magnitude ≤ 1) : (1 - m).sqrt.Within 0 1 := by
  have zero : IsMultiple (-22) 0 := ⟨0, by norm_num⟩
  have one : IsMultiple (-22) 1 := ⟨2 ^ 22, by norm_num⟩
  have unit := single_bounds zero one (by norm_num) (by norm_num) (by norm_num)
  obtain ⟨distance, hasDistance, distanceNonneg, distanceLe⟩ :=
    (unit.sub Binary.hasValue_one value (by linarith) (by linarith)).exists_hasValue
  exact hasDistance.sqrt_within distanceNonneg grid_one one_pos.le unit.largest_high (by linarith)

/-- The cubic factor, from the inside out. -/
private theorem cubicFactor_within (value : m.HasValue magnitude) (nonneg : 0 ≤ magnitude)
    (le : magnitude ≤ 1) :
    (arcCosineCoefficients.constant + m * (arcCosineCoefficients.linear +
      m * (arcCosineCoefficients.quadratic + arcCosineCoefficients.cubic * m))).Within 0 2 := by
  obtain ⟨hasConstant, hasLinear, hasQuadratic, hasCubic⟩ := hasValue_arcCosineCoefficients
  have zero : IsMultiple (-22) 0 := ⟨0, by norm_num⟩
  have eighth : IsMultiple (-22) (1 / 8) := ⟨2 ^ 19, by norm_num⟩
  have quarter : IsMultiple (-22) (-1 / 4) := ⟨-2 ^ 20, by norm_num⟩
  have thirtySecond : IsMultiple (-22) (-1 / 32) := ⟨-2 ^ 17, by norm_num⟩
  have upToEighth := single_bounds zero eighth (by norm_num) (by norm_num) (by norm_num)
  have fromQuarter := single_bounds quarter zero (by norm_num) (by norm_num) (by norm_num)
  have fromThirtySecond := single_bounds thirtySecond zero (by norm_num) (by norm_num) (by norm_num)
  obtain ⟨cubic, hasCubicTerm, cubicLower, cubicUpper⟩ :=
    (fromThirtySecond.mul hasCubic value (by linarith) (by linarith)).exists_hasValue
  obtain ⟨quadratic, hasQuadraticSum, quadraticLower, quadraticUpper⟩ :=
    (upToEighth.add hasQuadratic hasCubicTerm (by linarith) (by linarith)).exists_hasValue
  obtain ⟨product, hasProduct, productLower, productUpper⟩ :=
    (upToEighth.mul value hasQuadraticSum (mul_nonneg nonneg quadraticLower)
      ((mul_le_mul le quadraticUpper quadraticLower zero_le_one).trans_eq
        (one_mul _))).exists_hasValue
  obtain ⟨linear, hasLinearSum, linearLower, linearUpper⟩ :=
    (fromQuarter.add hasLinear hasProduct (by linarith) (by linarith)).exists_hasValue
  obtain ⟨product', hasProduct', productLower', productUpper'⟩ :=
    (fromQuarter.mul value hasLinearSum (by nlinarith)
      (mul_nonpos_of_nonneg_of_nonpos nonneg linearUpper)).exists_hasValue
  exact bounds_zero_two.add hasConstant hasProduct' (by linarith) (by linarith)

/-- On magnitudes up to one the approximation stays between zero and two. -/
theorem arcCosineCoefficients_within (value : m.HasValue magnitude) (nonneg : 0 ≤ magnitude)
    (le : magnitude ≤ 1) : (arcCosineCoefficients.eval m).Within 0 2 := by
  obtain ⟨root, hasRoot, rootNonneg, rootLe⟩ :=
    (sqrt_one_sub_within value nonneg le).exists_hasValue
  obtain ⟨factor, hasFactor, factorLower, factorUpper⟩ :=
    (cubicFactor_within value nonneg le).exists_hasValue
  exact bounds_zero_two.mul hasRoot hasFactor (mul_nonneg rootNonneg factorLower)
    ((mul_le_mul rootLe factorUpper factorLower zero_le_one).trans_eq (one_mul _))

/-- The arc cosine of a number between minus one and one is between zero and a half turn. -/
theorem arcCosine_within {x : Single} (within : x.Within (-1) 1) :
    (arcCosine x).Within 0 pi.toRat := by
  obtain ⟨q, value, lower, upper⟩ := within.exists_hasValue
  obtain ⟨angle, hasAngle, angleNonneg, angleLe⟩ :=
    (arcCosineCoefficients_within value.abs (abs_nonneg q)
      (abs_le.mpr ⟨lower, upper⟩)).exists_hasValue
  have half : 2 ≤ piValue := by norm_num [piValue]
  have zero : IsMultiple (-22) 0 := ⟨0, by norm_num⟩
  have range := single_bounds zero isMultiple_piValue (by norm_num) (by linarith)
    (by norm_num [piValue])
  rw [hasValue_pi.2, arcCosine]
  split
  · exact range.sub hasValue_pi hasAngle (by linarith) (by linarith)
  · exact hasAngle.within angleNonneg (by linarith)

/-- Every angle's sine and cosine are finite and between minus one and one, and the arc cosine of
either is an angle from zero to a half turn. -/
theorem sine_cosine_arcCosine_within (mode : ApproxMode) (x : Single) :
    (sine mode x).Within (-1) 1 ∧ (cosine mode x).Within (-1) 1 ∧
      (arcCosine (sine mode x)).Within 0 pi.toRat ∧
      (arcCosine (cosine mode x)).Within 0 pi.toRat :=
  have sineWithin := sine_within mode x
  have cosineWithin := sine_within mode (quarterTurnOn x)
  ⟨sineWithin, cosineWithin, arcCosine_within sineWithin, arcCosine_within cosineWithin⟩

end FlightMath
