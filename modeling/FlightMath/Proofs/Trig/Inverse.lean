import FlightMath.Proofs.Trig.ArcCosine

/-! # Arc cosine of cosine

The arc cosine gives back the magnitude of an angle whose cosine it is given. The distance of two
angles is bounded by that of their cosines, but only its square is next to zero and to a half turn,
where the cosine is flat. So the error of the cosine costs about its root there and a small multiple
of it elsewhere. The error of the arc cosine itself is added in both cases.
-/

namespace FlightMath

open FloatFormat Angle

/-! ## Angles with near cosines -/

section Angles

variable {a b inset : ℝ}

/-- Between an angle and its supplement the sine is at least theirs. -/
private theorem sin_le_sin_of_inset (nonneg : 0 ≤ inset) (lower : inset ≤ a)
    (upper : a ≤ Real.pi - inset) : Real.sin inset ≤ Real.sin a := by
  have positive := Real.pi_pos
  rcases le_total a (Real.pi / 2) with acute | obtuse
  · exact Real.sin_le_sin_of_le_of_le_pi_div_two (by linarith) acute lower
  · rw [← Real.sin_pi_sub a]
    apply Real.sin_le_sin_of_le_of_le_pi_div_two
    · linarith
    · linarith
    · linarith

/-- The difference of two cosines is a product of the sines of the mean angle and of half the
difference. -/
theorem two_mul_sin_mul_sin_le (nonneg : 0 ≤ inset) (lower : inset ≤ (a + b) / 2)
    (upper : (a + b) / 2 ≤ Real.pi - inset) (half : |(a - b) / 2| ≤ Real.pi) :
    2 * Real.sin inset * Real.sin |(a - b) / 2| ≤ |Real.cos a - Real.cos b| := by
  have mean := (sin_le_sin_of_inset nonneg lower upper).trans (le_abs_self _)
  rw [Real.cos_sub_cos, abs_mul, abs_mul, abs_neg, abs_two,
    Real.abs_sin_eq_sin_abs_of_abs_le_pi half]
  have sine := Real.sin_nonneg_of_nonneg_of_le_pi (abs_nonneg _) half
  gcongr

/-- A small angle is little more than its sine. -/
theorem mul_le_sin_of_le (nonneg : 0 ≤ a) (small : a ≤ 1 / 10) : 399 / 400 * a ≤ Real.sin a := by
  rcases nonneg.eq_or_lt with rfl | positive
  · simp
  · have cube := Real.sin_gt_sub_cube positive
    have square : a ^ 2 ≤ (1 / 10) ^ 2 := by gcongr
    have tail : a ^ 3 / 6 ≤ 1 / 400 * a := by
      have product := mul_le_mul_of_nonneg_right square nonneg
      linarith [pow_succ a 2]
    linarith

/-- Angles within a half turn whose cosines are near are themselves near: half of their difference
is an inset of their mean. -/
theorem abs_sub_le_of_cos_near (left : a ∈ Set.Icc 0 Real.pi) (right : b ∈ Set.Icc 0 Real.pi)
    (near : |Real.cos a - Real.cos b| ≤ 21 / 10 ^ 7) : |a - b| ≤ 21 / 10 ^ 4 := by
  obtain ⟨aNonneg, aLe⟩ := left
  obtain ⟨bNonneg, bLe⟩ := right
  have positive := Real.pi_gt_three
  obtain ⟨h, halfEq⟩ : ∃ h, |(a - b) / 2| = h := ⟨_, rfl⟩
  have double : |a - b| = 2 * h := by
    rw [← halfEq, abs_div, abs_two, mul_div_cancel₀ _ two_ne_zero]
  have nonneg : 0 ≤ h := halfEq ▸ abs_nonneg _
  obtain ⟨lower, upper⟩ := abs_le.mp double.le
  have insets : h ≤ (a + b) / 2 ∧ (a + b) / 2 ≤ Real.pi - h ∧ h ≤ Real.pi / 2 := by
    rcases abs_cases (a - b) with ⟨same, _⟩ | ⟨opposite, _⟩
    · refine ⟨by linarith, by linarith, by linarith⟩
    · refine ⟨by linarith, by linarith, by linarith⟩
  have product := two_mul_sin_mul_sin_le nonneg insets.1 insets.2.1 (by linarith)
  rw [halfEq] at product
  have square : 2 * Real.sin h * Real.sin h ≤ 21 / 10 ^ 7 := product.trans near
  have small : h ≤ 1 / 10 := by
    by_contra large
    have least := mul_le_sin_of_le (a := 1 / 10) (by norm_num) le_rfl
    have larger := Real.sin_le_sin_of_le_of_le_pi_div_two (by linarith) insets.2.2
      (not_le.mp large).le
    nlinarith
  have sine := mul_le_sin_of_le nonneg small
  have bound : h ≤ 105 / 10 ^ 5 := by nlinarith
  linarith

/-- Away from zero and from a half turn they are nearer. -/
theorem abs_sub_le_of_cos_near_of_inset (above : 99 / 1000 ≤ a) (below : a ≤ 3041 / 1000)
    (right : b ∈ Set.Icc 0 Real.pi) (near : |Real.cos a - Real.cos b| ≤ 21 / 10 ^ 7) :
    |a - b| ≤ 22 / 10 ^ 6 := by
  have positive := Real.pi_gt_d4
  have rough := abs_sub_le_of_cos_near ⟨by linarith, by linarith⟩ right near
  obtain ⟨lower, upper⟩ := abs_le.mp rough
  have double : |a - b| = 2 * |(a - b) / 2| := by
    rw [abs_div, abs_two, mul_div_cancel₀ _ two_ne_zero]
  have product := two_mul_sin_mul_sin_le (show (0 : ℝ) ≤ 97 / 1000 by norm_num)
    (show _ ≤ (a + b) / 2 by linarith) (by linarith) (by linarith)
  have inset := mul_le_sin_of_le (a := 97 / 1000) (by norm_num) (by norm_num)
  have sine := mul_le_sin_of_le (abs_nonneg ((a - b) / 2)) (by linarith)
  nlinarith [abs_nonneg ((a - b) / 2)]

end Angles

/-! ## The round trip -/

variable {x : Single} {q : ℚ}

/-- The error of the cosine on a half turn either side of zero. -/
private theorem exists_cosine_near (mode : ApproxMode) (value : x.HasValue q)
    (within : |q| ≤ piValue) :
    ∃ c : ℚ, (cosine mode x).HasValue c ∧ |c| ≤ 1 ∧ |(c : ℝ) - Real.cos q| ≤ 199 / 10 ^ 8 := by
  have half : piValue ≤ 315 / 100 := by norm_num [piValue]
  have half' : 314 / 100 ≤ piValue := by norm_num [piValue]
  have onward : |q + piValue / 2| ≤ 473 / 100 := by
    refine (abs_add_le _ _).trans ?_
    rw [abs_of_pos (by linarith : 0 < piValue / 2)]
    linarith
  obtain ⟨c, hasCosine, range, near⟩ := abs_cosine_sub_cos_le mode value (by norm_num)
    (by norm_num) (onward.trans (show _ ≤ (2 : ℚ) ^ (3 : ℤ) by norm_num))
    (by norm_num; linarith) 1 (by norm_num; linarith)
  exact ⟨c, hasCosine, range, near.trans (by norm_num [sineError])⟩

/-- The rounded half turn exceeds the true one, so a magnitude is cut off there. -/
private theorem exists_angle_near (within : |q| ≤ piValue) :
    ∃ a ∈ Set.Icc 0 Real.pi, |a - ((|q| : ℚ) : ℝ)| ≤ 875 / 10 ^ 10 := by
  obtain ⟨nonneg, le⟩ := piValue_sub_pi_bounds
  have magnitude : (0 : ℝ) ≤ ((|q| : ℚ) : ℝ) := by exact_mod_cast abs_nonneg q
  have within' : ((|q| : ℚ) : ℝ) ≤ piValue := by exact_mod_cast within
  rcases le_total ((|q| : ℚ) : ℝ) Real.pi with inside | beyond
  · refine ⟨_, ⟨magnitude, inside⟩, ?_⟩
    rw [sub_self, abs_zero]
    norm_num
  · refine ⟨Real.pi, ⟨Real.pi_pos.le, le_rfl⟩, ?_⟩
    rw [abs_of_nonpos (by linarith)]
    linarith

/-- The angle and the true arc cosine of its computed cosine have near cosines. -/
private theorem exists_cos_near (mode : ApproxMode) (value : x.HasValue q)
    (within : |q| ≤ piValue) :
    ∃ (angle : ℚ) (a b : ℝ), (arcCosine (cosine mode x)).HasValue angle ∧
      a ∈ Set.Icc 0 Real.pi ∧ b ∈ Set.Icc 0 Real.pi ∧ |(angle : ℝ) - b| ≤ 1 / 10 ^ 4 ∧
      |a - ((|q| : ℚ) : ℝ)| ≤ 875 / 10 ^ 10 ∧ |Real.cos a - Real.cos b| ≤ 21 / 10 ^ 7 := by
  obtain ⟨c, hasCosine, unit, cosineNear⟩ := exists_cosine_near mode value within
  obtain ⟨angle, hasAngle, angleNear⟩ := abs_arcCosine_sub_arccos_le hasCosine unit
  obtain ⟨a, aMem, cut⟩ := exists_angle_near within
  refine ⟨angle, a, Real.arccos c, hasAngle, aMem,
    ⟨Real.arccos_nonneg c, Real.arccos_le_pi c⟩, angleNear, cut, ?_⟩
  obtain ⟨lower, upper⟩ := abs_le.mp unit
  have moved := (Real.abs_cos_sub_cos_le a ((|q| : ℚ) : ℝ)).trans cut
  rw [Rat.cast_abs, Real.cos_abs] at moved
  rw [abs_sub_comm] at cosineNear
  rw [Real.cos_arccos (by exact_mod_cast lower) (by exact_mod_cast upper)]
  refine (abs_sub_le _ _ _).trans ((add_le_add moved cosineNear).trans ?_)
  norm_num

/-- The arc cosine of the cosine of an angle on a half turn either side of zero is within `2.5e-3`
of its magnitude, and within `2e-4` away from zero and from a half turn. -/
theorem arcCosine_cosine_near (mode : ApproxMode) (x : Single) (within : x.abs ≤ pi) :
    (arcCosine (cosine mode x)).Near |x.toRat| (25 / 10 ^ 4) ∧
      (1 / 10 ≤ |x.toRat| → |x.toRat| ≤ 304 / 100 →
        (arcCosine (cosine mode x)).Near |x.toRat| (2 / 10 ^ 4)) := by
  obtain ⟨q, value, bounded⟩ := Binary.exists_hasValue_of_abs_le within hasValue_pi
  obtain ⟨angle, a, b, hasAngle, aMem, bMem, angleNear, cut, near⟩ :=
    exists_cos_near mode value bounded
  have total : ∀ (gap : ℝ) (bound : ℚ), |a - b| ≤ gap →
      1 / 10 ^ 4 + (gap + 875 / 10 ^ 10) ≤ (bound : ℝ) →
      (arcCosine (cosine mode x)).Near |q| bound := by
    intro gap bound recovered sum
    rw [abs_sub_comm] at recovered
    exact hasAngle.near (abs_sub_le_of_near angleNear
      ((abs_sub_le _ _ _).trans (add_le_add recovered cut)) sum)
  rw [value.2]
  constructor
  · apply total _ _ (abs_sub_le_of_cos_near aMem bMem near)
    norm_num
  · intro above below
    have above' := (Rat.cast_le (K := ℝ)).mpr above
    have below' := (Rat.cast_le (K := ℝ)).mpr below
    obtain ⟨cutLower, cutUpper⟩ := abs_le.mp cut
    push_cast at above' below' cutLower cutUpper
    apply total _ _
      (abs_sub_le_of_cos_near_of_inset (by linarith) (by linarith) bMem near)
    norm_num

/-- Three radians are close enough to a half turn that the cosine is unwound and reflected and the
arc cosine reflected. -/
theorem arcCosine_cosine_near_three : (3 : Single).abs ≤ pi ∧ 1 / 10 ≤ |(3 : Single).toRat| ∧
    |(3 : Single).toRat| ≤ 304 / 100 ∧
    (arcCosine (cosine .fast 3)).Near |(3 : Single).toRat| (2 / 10 ^ 4) := by
  have three : (3 : Single).HasValue 3 := Binary.hasValue_ofNat 3 (by norm_num)
  have within : (3 : Single).abs ≤ pi :=
    (three.abs.le_iff hasValue_pi).mpr (by norm_num [piValue])
  have above : 1 / 10 ≤ |(3 : Single).toRat| := by norm_num [three.2]
  have below : |(3 : Single).toRat| ≤ 304 / 100 := by norm_num [three.2]
  exact ⟨within, above, below, (arcCosine_cosine_near .fast 3 within).2 above below⟩

end FlightMath
