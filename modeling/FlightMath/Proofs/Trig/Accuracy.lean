import FlightMath.Proofs.Trig.Range

/-! # Accuracy of the sine and the cosine

The distance of the computed sine from the true one has five parts: rounding in the polynomial, the
polynomial itself, the reflection about a rounded quarter turn, what unwinding loses, and the error
of a rounded whole turn for each turn taken off. The cosine adds the rounding of the angle a quarter
turn on.
-/

namespace FlightMath

open FloatFormat Angle

namespace Angle

/-- A half turn is rounded up, by less than `8.75e-8`. -/
theorem piValue_sub_pi_bounds : 0 ≤ (piValue : ℝ) - Real.pi ∧
    (piValue : ℝ) - Real.pi ≤ 875 / 10 ^ 10 := by
  have above := Real.pi_gt_d20
  have below := Real.pi_lt_d20
  norm_num [piValue]
  constructor <;> linarith

/-- Reflection about the rounded quarter turn moves the sine by the error of a half turn. -/
private theorem abs_sin_foldValue_sub_le (angle : ℚ) :
    |Real.sin (foldValue angle) - Real.sin angle| ≤ 875 / 10 ^ 10 := by
  obtain ⟨nonneg, le⟩ := piValue_sub_pi_bounds
  unfold foldValue
  split
  · have reflected : Real.sin angle = Real.sin (Real.pi - angle) := (Real.sin_pi_sub _).symm
    rw [reflected]
    refine (Real.abs_sin_sub_sin_le _ _).trans ?_
    push_cast
    rw [sub_sub_sub_cancel_right, abs_of_nonneg nonneg]
    exact le
  · split
    · have reflected : Real.sin angle = Real.sin (-Real.pi - angle) := by
        rw [← neg_add', Real.sin_neg, add_comm, Real.sin_add_pi, neg_neg]
      rw [reflected]
      refine (Real.abs_sin_sub_sin_le _ _).trans ?_
      push_cast
      rw [sub_sub_sub_cancel_right, neg_sub_neg, abs_sub_comm, abs_of_nonneg nonneg]
      exact le
    · rw [sub_self, abs_zero]
      norm_num

/-- Each whole turn taken off moves the sine by twice the error of a half turn. -/
private theorem abs_sin_sub_turns_le (angle : ℚ) (count : ℤ) :
    |Real.sin (angle - count * (2 * piValue) : ℚ) - Real.sin angle| ≤
      count.natAbs * (1750 / 10 ^ 10) := by
  obtain ⟨nonneg, le⟩ := piValue_sub_pi_bounds
  rw [← Real.sin_sub_int_mul_two_pi angle count]
  refine (Real.abs_sin_sub_sin_le _ _).trans ?_
  push_cast
  have difference : (angle - count * (2 * piValue) - (angle - count * (2 * Real.pi)) : ℝ) =
      -(count * (2 * (piValue - Real.pi))) := by ring
  have magnitude : ((count.natAbs : ℕ) : ℝ) = |(count : ℝ)| := by
    rw [Nat.cast_natAbs, Int.cast_abs]
  rw [difference, abs_neg, abs_mul, magnitude, abs_of_nonneg (by linarith : 0 ≤ 2 * (_ - Real.pi))]
  exact mul_le_mul_of_nonneg_left (by linarith) (abs_nonneg _)

end Angle

/-- A bound on the error of the sine of an angle that some whole turns are taken off. -/
def sineError (turns : ℕ) : ℚ :=
  15275 / 10 ^ 10 + (turns - 1 : ℕ) / 2 ^ 21 + turns * (1750 / 10 ^ 10)

private theorem sineError_mono {turns more : ℕ} (le : turns ≤ more) :
    sineError turns ≤ sineError more := by
  unfold sineError
  gcongr

variable {x : Single} {q : ℚ}

/-- A bound on rational numbers, read for real ones. -/
theorem abs_cast_sub_le {a b error : ℚ} (near : |a - b| ≤ error) :
    |(a : ℝ) - b| ≤ (error : ℝ) := by
  exact_mod_cast near

/-- The rounded polynomial is near the sine on a quarter turn either side of zero. -/
theorem abs_roundedEval_sub_sin_le (mode : ApproxMode) (value : x.HasValue q)
    (within : |q| ≤ piValue / 2) :
    |(mode.polynomial.roundedEval q : ℝ) - Real.sin q| ≤ 144 / 10 ^ 8 := by
  have correction := (roundedCorrection_spec mode value within).2
  have exact := abs_polynomial_sub_sin_le mode within
  have sum : q + mode.polynomial.roundedCorrection q - mode.polynomial.eval q =
      mode.polynomial.roundedCorrection q - (mode.polynomial.eval q - q) := by ring
  rw [← sum] at correction
  have unrounded := (abs_sub_le _ _ _).trans (add_le_add (abs_cast_sub_le correction) exact)
  have bounded : |q + mode.polynomial.roundedCorrection q| ≤ 2 ^ (1 : ℤ) := by
    have triangle := abs_sub_abs_le_abs_sub
      ((q + mode.polynomial.roundedCorrection q : ℚ) : ℝ) (Real.sin q)
    have real : |((q + mode.polynomial.roundedCorrection q : ℚ) : ℝ)| ≤ 2 := by
      norm_num at unrounded triangle ⊢
      linarith [Real.abs_sin_le_one q]
    rw [zpow_one]
    exact_mod_cast real
  have rounding := Binary.abs_single_nearest_sub_le (by norm_num) bounded
  refine (abs_sub_le _ _ _).trans ((add_le_add (abs_cast_sub_le rounding) unrounded).trans ?_)
  norm_num

/-- The error of the sine of any accepted angle. -/
theorem abs_sine_sub_sin_le (mode : ApproxMode) (value : x.HasValue q) (below : |q| < 33)
    (turns : ℕ) (enough : |q| + piValue < (turns + 1) * (2 * piValue - 1 / 2 ^ 21)) :
    ∃ v : ℚ, (sine mode x).HasValue v ∧ |v| ≤ 1 ∧ |(v : ℝ) - Real.sin q| ≤ sineError turns := by
  obtain ⟨reduced, count, folded, bounded, near, foldedValue, result⟩ :=
    hasValue_sine mode value below
  have within := abs_foldValue_le bounded
  refine ⟨_, result, abs_roundedEval_le mode foldedValue within, ?_⟩
  have fewer := sineError_mono (natAbs_le_of_reduced bounded near enough)
  have fewer' : (sineError count.natAbs : ℝ) ≤ sineError turns := by exact_mod_cast fewer
  have polynomial := abs_roundedEval_sub_sin_le mode foldedValue within
  have reflection := abs_sin_foldValue_sub_le reduced
  have unwinding : |Real.sin reduced - Real.sin (q - count * (2 * piValue) : ℚ)| ≤
      ((count.natAbs - 1 : ℕ) : ℝ) / 2 ^ 21 := by
    refine (Real.abs_sin_sub_sin_le _ _).trans ((abs_cast_sub_le near).trans_eq ?_)
    push_cast
    rfl
  have turning := abs_sin_sub_turns_le q count
  refine le_trans ?_ fewer'
  refine (abs_sub_le _ (Real.sin (foldValue reduced)) _).trans ?_
  have rest := (abs_sub_le (Real.sin (foldValue reduced)) (Real.sin reduced) (Real.sin q)).trans
    (add_le_add reflection ((abs_sub_le _ _ _).trans (add_le_add unwinding turning)))
  refine (add_le_add polynomial rest).trans_eq ?_
  rw [sineError]
  push_cast
  ring

/-- The error of the cosine, where the rounded angle a quarter turn on is accepted. -/
theorem abs_cosine_sub_cos_le_of_accepted (mode : ApproxMode) (value : x.HasValue q) {top : ℤ}
    (low : -125 ≤ top) (high : top ≤ 127) (bounded : |q + piValue / 2| ≤ 2 ^ top)
    (below : |single.nearest (q + piValue / 2)| < 33) (turns : ℕ)
    (enough : |single.nearest (q + piValue / 2)| + piValue <
      (turns + 1) * (2 * piValue - 1 / 2 ^ 21)) :
    ∃ v : ℚ, (cosine mode x).HasValue v ∧ |v| ≤ 1 ∧
      |(v : ℝ) - Real.cos q| ≤ sineError turns + 2 ^ (top - 25) + 438 / 10 ^ 10 := by
  have onward := value.add hasValue_halfPi
    (Binary.single_le_largest (zpow_le_zpow_right₀ one_le_two high) bounded)
  have rounding := Binary.abs_single_nearest_sub_le low bounded
  obtain ⟨v, result, range, error⟩ := abs_sine_sub_sin_le mode onward below turns enough
  refine ⟨v, result, range, ?_⟩
  obtain ⟨nonneg, le⟩ := piValue_sub_pi_bounds
  have moved : |Real.sin (single.nearest (q + piValue / 2)) - Real.sin (q + piValue / 2 : ℚ)| ≤
      2 ^ (top - 25) := by
    refine (Real.abs_sin_sub_sin_le _ _).trans ((abs_cast_sub_le rounding).trans_eq ?_)
    push_cast
    rfl
  have quarter : |Real.sin (q + piValue / 2 : ℚ) - Real.cos q| ≤ 438 / 10 ^ 10 := by
    rw [← Real.sin_add_pi_div_two]
    refine (Real.abs_sin_sub_sin_le _ _).trans ?_
    push_cast
    rw [add_sub_add_left_eq_sub, abs_of_nonneg (by linarith)]
    linarith
  refine (abs_sub_le _ _ _).trans ((add_le_add error
    ((abs_sub_le _ _ _).trans (add_le_add moved quarter))).trans_eq ?_)
  ring

/-- The error of the cosine, where the angle a quarter turn on is below a power of two. -/
theorem abs_cosine_sub_cos_le (mode : ApproxMode) (value : x.HasValue q) {top : ℤ}
    (low : -125 ≤ top) (high : top ≤ 127) (bounded : |q + piValue / 2| ≤ 2 ^ top)
    (below : |q + piValue / 2| + 2 ^ (top - 25) < 33) (turns : ℕ)
    (enough : |q + piValue / 2| + 2 ^ (top - 25) + piValue <
      (turns + 1) * (2 * piValue - 1 / 2 ^ 21)) :
    ∃ v : ℚ, (cosine mode x).HasValue v ∧ |v| ≤ 1 ∧
      |(v : ℝ) - Real.cos q| ≤ sineError turns + 2 ^ (top - 25) + 438 / 10 ^ 10 := by
  have rounding := Binary.abs_single_nearest_sub_le low bounded
  have size := abs_sub_abs_le_abs_sub (single.nearest (q + piValue / 2)) (q + piValue / 2)
  exact abs_cosine_sub_cos_le_of_accepted mode value low high bounded (by linarith) turns
    (by linarith)

/-! ## Taylor polynomials -/

/-- The Taylor polynomials are near the true functions on a half turn either side of zero. -/
theorem abs_sub_taylor_le (within : |q| ≤ piValue) :
    |Real.sin q - sinTaylor 14 q| ≤ 1 / 10 ^ 13 ∧ |Real.cos q - cosTaylor 15 q| ≤ 1 / 10 ^ 13 := by
  have half : |q| ≤ 315 / 100 := within.trans (by norm_num [piValue])
  have remainder : ∀ terms : ℕ,
      (315 / 100) ^ (2 * terms) / (2 * terms).factorial * 2 ≤ (1 / 10 ^ 13 : ℚ) →
      ((|q| ^ (2 * terms) / (2 * terms).factorial * 2 : ℚ) : ℝ) ≤ 1 / 10 ^ 13 := by
    intro terms small
    have bound : |q| ^ (2 * terms) / (2 * terms).factorial * 2 ≤ 1 / 10 ^ 13 := by
      refine le_trans ?_ small
      gcongr
    have real := (Rat.cast_le (K := ℝ)).mpr bound
    push_cast at real ⊢
    exact real
  constructor
  · exact (abs_sin_sub_sinTaylor_le 14 (half.trans (by norm_num))).trans
      (remainder 14 (by norm_num [Nat.factorial]))
  · exact (abs_cos_sub_cosTaylor_le 15 (half.trans (by norm_num))).trans
      (remainder 15 (by norm_num [Nat.factorial]))

/-- Two approximations of one real number are near each other. -/
theorem abs_sub_le_of_near {a b bound : ℚ} {exact near far : ℝ} (left : |(a : ℝ) - exact| ≤ near)
    (right : |exact - b| ≤ far) (sum : near + far ≤ (bound : ℝ)) : |a - b| ≤ bound := by
  have triangle := ((abs_sub_le _ _ _).trans (add_le_add left right)).trans sum
  exact_mod_cast triangle

/-- On a half turn either side of zero the sine and the cosine are within `3e-6` of the Taylor
polynomials of degree twenty-seven and twenty-eight, and those are within `1e-13` of the true
functions. -/
theorem sine_cosine_near_taylor (mode : ApproxMode) (x : Single) (within : x.abs ≤ pi) :
    (sine mode x).isFinite = true ∧ (cosine mode x).isFinite = true ∧
      |(sine mode x).toRat - sinTaylor 14 x.toRat| ≤ 3 / 10 ^ 6 ∧
      |(cosine mode x).toRat - cosTaylor 15 x.toRat| ≤ 3 / 10 ^ 6 ∧
      |Real.sin x.toRat - sinTaylor 14 x.toRat| ≤ 1 / 10 ^ 13 ∧
      |Real.cos x.toRat - cosTaylor 15 x.toRat| ≤ 1 / 10 ^ 13 := by
  obtain ⟨q, value, bounded⟩ := Binary.exists_hasValue_of_abs_le within hasValue_pi
  obtain ⟨sineTaylor, cosineTaylor⟩ := abs_sub_taylor_le bounded
  have half : piValue ≤ 315 / 100 := by norm_num [piValue]
  have half' : 314 / 100 ≤ piValue := by norm_num [piValue]
  have onward : |q + piValue / 2| ≤ 473 / 100 := by
    refine (abs_add_le _ _).trans ?_
    rw [abs_of_pos (by norm_num [piValue] : 0 < piValue / 2)]
    linarith
  have onward' : |q + piValue / 2| ≤ 2 ^ (3 : ℤ) := onward.trans (by norm_num)
  obtain ⟨s, hasSine, -, sineNear⟩ := abs_sine_sub_sin_le mode value (by linarith) 1
    (by norm_num; linarith)
  obtain ⟨c, hasCosine, -, cosineNear⟩ := abs_cosine_sub_cos_le mode value (by norm_num)
    (by norm_num) onward' (by norm_num; linarith) 1 (by norm_num; linarith)
  rw [value.2, hasSine.2, hasCosine.2]
  refine ⟨hasSine.1, hasCosine.1, ?_, ?_, sineTaylor, cosineTaylor⟩
  · exact abs_sub_le_of_near sineNear sineTaylor (by norm_num [sineError])
  · exact abs_sub_le_of_near cosineNear cosineTaylor (by norm_num [sineError])

/-- At three radians the sine is reflected and the angle of the cosine unwound. -/
theorem sine_cosine_near_taylor_three : (3 : Single).abs ≤ pi ∧
    |(sine .fast 3).toRat - sinTaylor 14 (3 : Single).toRat| ≤ 3 / 10 ^ 6 ∧
    |(cosine .fast 3).toRat - cosTaylor 15 (3 : Single).toRat| ≤ 3 / 10 ^ 6 :=
  have within : (3 : Single).abs ≤ pi := by decide +kernel
  have near := sine_cosine_near_taylor .fast 3 within
  ⟨within, near.2.2.1, near.2.2.2.1⟩

end FlightMath
