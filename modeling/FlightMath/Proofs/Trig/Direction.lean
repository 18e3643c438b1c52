import FlightMath.Proofs.Trig.Quadrant

/-! # The direction of a point

A point is a distance times the cosine and the sine of its true angle. The sine of the difference of
two angles is a cross product, and its cosine a dot product, so the computed angle points in the
direction of the point as soon as it is near the true one. The bound is nearly used up: the error of
the fraction and of its evaluation, the rounded ratio, and both reflections add up to `9.99e-7`.
-/

namespace FlightMath

open FloatFormat Angle

/-! ## Polar coordinates -/

/-- The point lies at a positive distance in the direction of an angle. -/
structure Polar (x y distance angle : ℝ) : Prop where
  positive : 0 < distance
  abscissa : x = distance * Real.cos angle
  ordinate : y = distance * Real.sin angle

namespace Polar

variable {x y distance angle : ℝ}

theorem arctan (positive : 0 < x) (y : ℝ) :
    Polar x y (x * Real.sqrt (1 + (y / x) ^ 2)) (Real.arctan (y / x)) := by
  have root : 0 < Real.sqrt (1 + (y / x) ^ 2) := Real.sqrt_pos.mpr (by positivity)
  refine ⟨mul_pos positive root, ?_, ?_⟩
  · rw [Real.cos_arctan]
    field_simp
  · rw [Real.sin_arctan]
    field_simp

theorem swap (polar : Polar x y distance angle) : Polar y x distance (Real.pi / 2 - angle) := by
  refine ⟨polar.positive, ?_, ?_⟩
  · rw [Real.cos_pi_div_two_sub, ← polar.ordinate]
  · rw [Real.sin_pi_div_two_sub, ← polar.abscissa]

theorem mirror (polar : Polar x y distance angle) : Polar (-x) y distance (Real.pi - angle) := by
  refine ⟨polar.positive, ?_, ?_⟩
  · rw [Real.cos_pi_sub, mul_neg, ← polar.abscissa]
  · rw [Real.sin_pi_sub, ← polar.ordinate]

theorem conjugate (polar : Polar x y distance angle) : Polar x (-y) distance (-angle) := by
  refine ⟨polar.positive, ?_, ?_⟩
  · rw [Real.cos_neg, ← polar.abscissa]
  · rw [Real.sin_neg, mul_neg, ← polar.ordinate]

theorem abs_abscissa_le (polar : Polar x y distance angle) : |x| ≤ distance := by
  rw [polar.abscissa, abs_mul, abs_of_pos polar.positive]
  exact mul_le_of_le_one_right polar.positive.le (Real.abs_cos_le_one angle)

theorem abs_ordinate_le (polar : Polar x y distance angle) : |y| ≤ distance := by
  rw [polar.ordinate, abs_mul, abs_of_pos polar.positive]
  exact mul_le_of_le_one_right polar.positive.le (Real.abs_sin_le_one angle)

theorem distance_le (polar : Polar x y distance angle) : distance ≤ |x| + |y| := by
  have square : distance ^ 2 = |x| ^ 2 + |y| ^ 2 := by
    rw [sq_abs, sq_abs, polar.abscissa, polar.ordinate, mul_pow, mul_pow, ← mul_add,
      Real.cos_sq_add_sin_sq, mul_one]
  refine (sq_le_sq₀ polar.positive.le (by positivity)).mp ?_
  rw [square]
  nlinarith [mul_nonneg (abs_nonneg x) (abs_nonneg y)]

/-- The cross product with the direction of another angle. -/
theorem cross (polar : Polar x y distance angle) (other : ℝ) :
    x * Real.sin other - y * Real.cos other = distance * Real.sin (other - angle) := by
  rw [Real.sin_sub, polar.abscissa, polar.ordinate]
  ring

/-- The dot product with the direction of another angle. -/
theorem dot (polar : Polar x y distance angle) (other : ℝ) :
    x * Real.cos other + y * Real.sin other = distance * Real.cos (other - angle) := by
  rw [Real.cos_sub, polar.abscissa, polar.ordinate]
  ring

end Polar

/-- A rational angle points in the direction of a point. -/
def PointsTo (x y angle : ℚ) : Prop :=
  |x * sinTaylor 14 angle - y * cosTaylor 15 angle| ≤ 1 / 10 ^ 6 * (|x| + |y|) ∧
    0 < x * cosTaylor 15 angle + y * sinTaylor 14 angle

variable {x y angle : ℚ} {distance heading : ℝ}

/-- The cross product with the Taylor polynomials is that with the true functions, up to their
distance. -/
theorem Polar.abs_cross_taylor_le (polar : Polar x y distance heading) (within : |angle| ≤ piValue)
    (near : |(angle : ℝ) - heading| ≤ 999 / 10 ^ 9) :
    |(x * sinTaylor 14 angle - y * cosTaylor 15 angle : ℝ)| ≤
      1 / 10 ^ 6 * (|(x : ℝ)| + |(y : ℝ)|) := by
  obtain ⟨sine, cosine⟩ := abs_sub_taylor_le within
  have width := abs_nonneg (x : ℝ)
  have height := abs_nonneg (y : ℝ)
  have abscissa := mul_le_mul_of_nonneg_left sine width
  have ordinate := mul_le_mul_of_nonneg_left cosine height
  rw [← abs_mul] at abscissa ordinate
  have turned : |x * Real.sin angle - y * Real.cos angle| ≤
      (|(x : ℝ)| + |(y : ℝ)|) * (999 / 10 ^ 9) := by
    rw [polar.cross, abs_mul, abs_of_pos polar.positive]
    exact mul_le_mul polar.distance_le (Real.abs_sin_le_abs.trans near) (abs_nonneg _)
      (add_nonneg width height)
  have split : (x * sinTaylor 14 angle - y * cosTaylor 15 angle : ℝ) =
      (x * Real.sin angle - y * Real.cos angle) - x * (Real.sin angle - sinTaylor 14 angle) +
        y * (Real.cos angle - cosTaylor 15 angle) := by ring
  rw [split]
  refine (abs_add_le _ _).trans ((add_le_add ((abs_sub _ _).trans
    (add_le_add turned abscissa)) ordinate).trans ?_)
  linarith

/-- The dot product is more than the distance less what the Taylor polynomials lose. -/
theorem Polar.dot_taylor_pos (polar : Polar x y distance heading) (within : |angle| ≤ piValue)
    (near : |(angle : ℝ) - heading| ≤ 1) :
    (0 : ℝ) < x * cosTaylor 15 angle + y * sinTaylor 14 angle := by
  obtain ⟨sine, cosine⟩ := abs_sub_taylor_le within
  have abscissa := mul_le_mul_of_nonneg_left cosine (abs_nonneg (x : ℝ))
  have ordinate := mul_le_mul_of_nonneg_left sine (abs_nonneg (y : ℝ))
  rw [← abs_mul] at abscissa ordinate
  have close : 1 / 2 ≤ Real.cos (angle - heading) := by
    have square := (sq_le_one_iff_abs_le_one _).mpr near
    linarith [Real.one_sub_sq_div_two_le_cos (x := angle - heading)]
  have along := mul_le_mul_of_nonneg_left close polar.positive.le
  rw [← polar.dot] at along
  have split : (x * cosTaylor 15 angle + y * sinTaylor 14 angle : ℝ) =
      (x * Real.cos angle + y * Real.sin angle) - x * (Real.cos angle - cosTaylor 15 angle) -
        y * (Real.sin angle - sinTaylor 14 angle) := by ring
  rw [split]
  linarith [(abs_le.mp abscissa).2, (abs_le.mp ordinate).2, polar.abs_abscissa_le,
    polar.abs_ordinate_le, polar.positive]

/-- An angle that is near the true one points in the direction of the point. -/
theorem Polar.pointsTo (polar : Polar x y distance heading) (within : |angle| ≤ piValue)
    (near : |(angle : ℝ) - heading| ≤ 999 / 10 ^ 9) : PointsTo x y angle := by
  have cross := polar.abs_cross_taylor_le within near
  have dot := polar.dot_taylor_pos within (near.trans (by norm_num))
  constructor
  · refine (Rat.cast_le (K := ℝ)).mp ?_
    push_cast
    exact cross
  · exact_mod_cast dot

/-! ## The true angle -/

private theorem abs_quadrantOf_sub (steep : Prop) [Decidable steep] (a b : ℝ) :
    |quadrantOf steep a - quadrantOf steep b| = |a - b| := by
  unfold quadrantOf
  split
  · rw [sub_sub_sub_cancel_left, abs_sub_comm]
  · rfl

private theorem abs_upperOf_sub (leftward : Prop) [Decidable leftward] (a b : ℝ) :
    |upperOf leftward a - upperOf leftward b| = |a - b| := by
  unfold upperOf
  split
  · rw [sub_sub_sub_cancel_left, abs_sub_comm]
  · rfl

/-- The arc tangent of the smaller coordinate over the larger one, reflected at the diagonal if that
is steep, is the angle of a point of the first quadrant. -/
theorem polar_quadrantOf {steep : Prop} [Decidable steep] (isSteep : steep ↔ x < y) (width : 0 ≤ x)
    (height : 0 ≤ y) (nonzero : ¬(x = 0 ∧ y = 0)) : ∃ distance,
      Polar x y distance (quadrantOf steep (Real.arctan ((min x y / max x y : ℚ) : ℝ))) := by
  unfold quadrantOf
  rw [Rat.cast_div]
  split
  · next above =>
    have less := isSteep.mp above
    rw [min_eq_left less.le, max_eq_right less.le]
    have positive : (0 : ℝ) < y := by exact_mod_cast width.trans_lt less
    exact ⟨_, (Polar.arctan positive x).swap⟩
  · next notAbove =>
    have le := not_lt.mp (mt isSteep.mpr notAbove)
    rw [min_eq_right le, max_eq_left le]
    have positive : (0 : ℝ) < x := by
      have nonzero' : x ≠ 0 := fun zero => nonzero ⟨zero, le_antisymm (zero ▸ le) height⟩
      exact_mod_cast lt_of_le_of_ne width nonzero'.symm
    exact ⟨_, Polar.arctan positive y⟩

theorem Polar.upperOf {leftward : Prop} [Decidable leftward] (isLeftward : leftward ↔ x < 0)
    {y : ℝ} (polar : Polar ((|x| : ℚ) : ℝ) y distance heading) :
    Polar x y distance (upperOf leftward heading) := by
  unfold FlightMath.upperOf
  split
  · next negative =>
    have mirrored := polar.mirror
    rwa [abs_of_neg (isLeftward.mp negative), Rat.cast_neg, neg_neg] at mirrored
  · next nonneg =>
    rwa [abs_of_nonneg (not_lt.mp (mt isLeftward.mpr nonneg))] at polar

/-- A change of the tangent moves the angle by no more. -/
private theorem abs_arctan_sub_arctan_le (a b : ℝ) : |Real.arctan a - Real.arctan b| ≤ |a - b| := by
  have slope (t : ℝ) : ‖1 / (1 + t ^ 2)‖ ≤ 1 := by
    rw [Real.norm_of_nonneg (by positivity)]
    exact div_le_one_of_le₀ (le_add_of_nonneg_right (sq_nonneg t)) (by positivity)
  have mean := convex_univ.norm_image_sub_le_of_norm_hasDerivWithin_le
    (fun t _ => (Real.hasDerivAt_arctan t).hasDerivWithinAt) (fun t _ => slope t)
    (Set.mem_univ b) (Set.mem_univ a)
  rwa [one_mul] at mean

/-! ## The computed angle -/

/-- The angle of a finite point other than the origin points in its direction: the cross product
with the Taylor polynomials at the angle is at most `1e-6` of the sum of the magnitudes, and the dot
product is positive. -/
theorem arcTangent2_pointsTo (y x : Single) (finiteOrdinate : y.isFinite = true)
    (finiteAbscissa : x.isFinite = true) (nonzero : ¬(x.toRat = 0 ∧ y.toRat = 0)) :
    (arcTangent2 y x).isFinite = true ∧
      PointsTo x.toRat y.toRat (arcTangent2 y x).toRat := by
  have abscissa := Binary.hasValue_toRat finiteAbscissa
  have ordinate := Binary.hasValue_toRat finiteOrdinate
  generalize x.toRat = a at *
  generalize y.toRat = b at *
  have exactUnit := min_div_max_mem (abs_nonneg a) (abs_nonneg b)
  obtain ⟨angle, value, positive, below, -, near⟩ := upperAngle_spec
    (hasValue_magnitudeRatio abscissa.abs ordinate.abs (abs_nonneg a) (abs_nonneg b))
    (nearest_mem_unit exactUnit)
  obtain ⟨distance, quadrant⟩ := polar_quadrantOf (abscissa.abs.lt_iff ordinate.abs) (abs_nonneg a)
    (abs_nonneg b) (by rwa [abs_eq_zero, abs_eq_zero])
  have upper := quadrant.upperOf (abscissa.lt_iff Binary.hasValue_zero)
  generalize min |a| |b| / max |a| |b| = ratio at *
  have bounded : |ratio| ≤ 2 ^ (0 : ℤ) := by
    rw [abs_of_nonneg exactUnit.1, zpow_zero]
    exact exactUnit.2
  have rounding := abs_cast_sub_le (Binary.abs_single_nearest_sub_le (by norm_num) bounded)
  have moved := (abs_arctan_sub_arctan_le _ _).trans rounding
  rw [← abs_quadrantOf_sub (x.abs < y.abs), ← abs_upperOf_sub (x < 0)] at moved
  have near' := ((abs_sub_le _ _ _).trans (add_le_add near moved)).trans
    (show _ ≤ (999 / 10 ^ 9 : ℝ) by norm_num)
  have within : |angle| ≤ piValue := by
    rw [abs_of_pos positive]
    exact below.le
  rw [arcTangent2_eq]
  split
  · next beneath =>
    have lower := upper.conjugate
    rw [abs_of_neg ((ordinate.lt_iff Binary.hasValue_zero).mp beneath), Rat.cast_neg, neg_neg]
      at lower
    rw [value.neg.2]
    refine ⟨value.neg.1, lower.pointsTo (by rwa [abs_neg]) ?_⟩
    rwa [Rat.cast_neg, neg_sub_neg, abs_sub_comm]
  · next notBeneath =>
    rw [abs_of_nonneg (not_lt.mp (mt (ordinate.lt_iff Binary.hasValue_zero).mpr notBeneath))]
      at upper
    rw [value.2]
    exact ⟨value.1, upper.pointsTo within near'⟩

/-- A steep point of the third quadrant, where both reflections apply and the sign is put back. -/
theorem arcTangent2_pointsTo_thirdQuadrant :
    (-3 : Single).isFinite = true ∧ (-1 : Single).isFinite = true ∧
      ¬((-1 : Single).toRat = 0 ∧ (-3 : Single).toRat = 0) ∧
      (arcTangent2 (-3) (-1)).isFinite = true ∧
      PointsTo (-1 : Single).toRat (-3 : Single).toRat (arcTangent2 (-3) (-1)).toRat :=
  have three : (-3 : Single).isFinite = true := by decide +kernel
  have one : (-1 : Single).isFinite = true := by decide +kernel
  have nonzero : ¬((-1 : Single).toRat = 0 ∧ (-3 : Single).toRat = 0) := by decide +kernel
  ⟨three, one, nonzero, arcTangent2_pointsTo (-3) (-1) three one nonzero⟩

end FlightMath
