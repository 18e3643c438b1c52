import FlightMath.Proofs.Quaternion.Product

/-! # Changing frames and back

In exact arithmetic a change of frame by `q` and back multiplies a vector by the fourth power of the
norm of `q`, and neither result has a real part. A rotation has a norm near one, and each computed
change of frame adds the errors of two products, so the vector comes back up to a hundred-thousandth
of its greatest component.
-/

open scoped Quaternion

namespace FlightMath.Quaternion

open Binary

/-- A quaternion that stands for a rotation: its squared modulus is near one. -/
structure IsRotation (q : Quaternion) : Prop where
  finite : q.IsFinite
  unit : |q.squaredModulus - 1| ≤ 1 / 10 ^ 6

variable {v q : Quaternion}

theorem IsRotation.conjugate (rotation : q.IsRotation) : q.conjugate.IsRotation := by
  refine ⟨rotation.finite.conjugate, ?_⟩
  have same : q.conjugate.squaredModulus = q.squaredModulus := by
    simp [squaredModulus, Quaternion.conjugate, toRat_neg]
  rw [same]
  exact rotation.unit

theorem IsRotation.sq_norm_le (rotation : q.IsRotation) : ‖q.toReal‖ ^ 2 ≤ 1 + 1 / 10 ^ 6 := by
  have unit := (Rat.cast_le (K := ℝ)).mpr (abs_le.mp rotation.unit).2
  rw [sq_norm_toReal]
  push_cast at unit
  linarith

theorem IsRotation.norm_le (rotation : q.IsRotation) : ‖q.toReal‖ ≤ 1 + 1 / 10 ^ 6 := by
  have square := rotation.sq_norm_le
  by_contra above
  nlinarith [not_le.mp above]

/-! ## Exact changes of frame -/

private theorem re_vectorPart (v : Quaternion) : v.vectorPart.toReal.re = 0 := by
  have zero := (hasValue_zero (F := FloatFormat.single)).2
  rw [re_toReal, vectorPart, ofVector, zero, Rat.cast_zero]

/-- A change of frame takes vectors to vectors. -/
theorem re_mul_mul_star (a : ℍ[ℝ]) {b : ℍ[ℝ]} (vector : b.re = 0) : (a * b * star a).re = 0 := by
  simp only [Quaternion.re_mul, Quaternion.imI_mul, Quaternion.imJ_mul, Quaternion.imK_mul,
    Quaternion.re_star, Quaternion.imI_star, Quaternion.imJ_star, Quaternion.imK_star, vector]
  ring

/-- A change of frame multiplies the length by the square of the norm. -/
theorem norm_mul_mul_star (a b : ℍ[ℝ]) : ‖a * b * star a‖ = ‖a‖ ^ 2 * ‖b‖ := by
  rw [norm_mul, norm_mul, norm_star]
  ring

/-- A change of frame and back multiplies by the fourth power of the norm. -/
theorem star_mul_mul_mul (a b : ℍ[ℝ]) : star a * (a * b * star a) * a = (‖a‖ ^ 2) ^ 2 • b := by
  have square : star a * a = ((‖a‖ ^ 2 : ℝ) : ℍ[ℝ]) := by
    rw [Quaternion.star_mul_self, Quaternion.normSq_eq_norm_mul_self, sq]
  calc star a * (a * b * star a) * a = star a * a * b * (star a * a) := by
        simp only [mul_assoc]
    _ = (‖a‖ ^ 2) ^ 2 • b := by
        rw [square, Quaternion.coe_mul_eq_smul, Quaternion.mul_coe_eq_smul, smul_smul, ← sq]

/-! ## Computed changes of frame -/

/-- A computed change of frame adds the errors of two products, the first of them times the norm of
the attitude. -/
theorem bodyToEarth_near (rotation : q.IsRotation) (finite : v.vectorPart.IsFinite)
    (small : ‖v.vectorPart.toReal‖ ≤ 2 ^ 63) :
    (bodyToEarth v q).Approximates (q.toReal * v.vectorPart.toReal * star q.toReal)
      (191 / 10 ^ 8 * ‖v.vectorPart.toReal‖ + 1 / 2 ^ 143) := by
  have norm := rotation.norm_le
  have nonneg := norm_nonneg q.toReal
  have sizeNonneg := norm_nonneg v.vectorPart.toReal
  have scaled : ‖q.toReal‖ * ‖v.vectorPart.toReal‖ ≤ (1 + 1 / 10 ^ 6) * ‖v.vectorPart.toReal‖ :=
    mul_le_mul_of_nonneg_right norm sizeNonneg
  have inner := mul_near rotation.finite finite (by linarith)
  have conjugate := rotation.finite.conjugate.approximates
  rw [toReal_conjugate] at conjugate
  have size : (‖q.toReal‖ * ‖v.vectorPart.toReal‖ +
      (‖q.toReal‖ * ‖v.vectorPart.toReal‖ / 2 ^ 20 + 1 / 2 ^ 145)) * ‖q.toReal‖ ≤
      ((1 + 1 / 10 ^ 6) * ‖v.vectorPart.toReal‖ * (1 + 1 / 2 ^ 20) + 1 / 2 ^ 145) *
        (1 + 1 / 10 ^ 6) :=
    mul_le_mul (by linarith) norm nonneg (by positivity)
  have carried : (‖q.toReal‖ * ‖v.vectorPart.toReal‖ / 2 ^ 20 + 1 / 2 ^ 145) * ‖q.toReal‖ ≤
      ((1 + 1 / 10 ^ 6) * ‖v.vectorPart.toReal‖ / 2 ^ 20 + 1 / 2 ^ 145) * (1 + 1 / 10 ^ 6) :=
    mul_le_mul (by linarith) norm nonneg (by positivity)
  have outer := inner.mul conjugate (by rw [norm_mul, norm_star, add_zero]; linarith)
  rw [norm_mul, norm_star, add_zero, mul_zero, add_zero] at outer
  exact ⟨outer.finite, outer.near.trans (by linarith)⟩

/-- Going to the earth and back to the body, before the scale of the attitude is accounted for. -/
theorem earthToBody_bodyToEarth_sub_le (rotation : q.IsRotation) (finite : v.vectorPart.IsFinite)
    (small : ‖v.vectorPart.toReal‖ ≤ 2 ^ 62) :
    (earthToBody (bodyToEarth v q) q).IsFinite ∧
      ‖(earthToBody (bodyToEarth v q) q).toReal -
          (‖q.toReal‖ ^ 2) ^ 2 • v.vectorPart.toReal‖ ≤
        383 / 10 ^ 8 * ‖v.vectorPart.toReal‖ + 1 / 2 ^ 141 := by
  have square := rotation.sq_norm_le
  have vector := re_vectorPart v
  obtain ⟨earthFinite, earthNear⟩ := bodyToEarth_near rotation finite (small.trans (by norm_num))
  rw [earthToBody_eq_bodyToEarth_conjugate]
  generalize bodyToEarth v q = earth at *
  have partNear := (norm_toReal_vectorPart_sub_le (re_mul_mul_star q.toReal vector)).trans earthNear
  generalize v.vectorPart.toReal = b at *
  have sizeNonneg := norm_nonneg b
  have exactNorm : ‖q.toReal * b * star q.toReal‖ ≤ (1 + 1 / 10 ^ 6) * ‖b‖ := by
    rw [norm_mul_mul_star]
    exact mul_le_mul_of_nonneg_right square sizeNonneg
  have partNorm : ‖earth.vectorPart.toReal‖ ≤
      (1 + 1 / 10 ^ 6) * ‖b‖ + (191 / 10 ^ 8 * ‖b‖ + 1 / 2 ^ 143) := by
    have triangle := norm_le_norm_add_norm_sub' earth.vectorPart.toReal
      (q.toReal * b * star q.toReal)
    linarith
  obtain ⟨bodyFinite, bodyNear⟩ := bodyToEarth_near rotation.conjugate earthFinite.vectorPart
    (by linarith)
  refine ⟨bodyFinite, ?_⟩
  rw [toReal_conjugate, star_star] at bodyNear
  have carried : ‖star q.toReal * (earth.vectorPart.toReal - q.toReal * b * star q.toReal) *
      q.toReal‖ ≤ (1 + 1 / 10 ^ 6) * (191 / 10 ^ 8 * ‖b‖ + 1 / 2 ^ 143) := by
    have length := norm_mul_mul_star (star q.toReal)
      (earth.vectorPart.toReal - q.toReal * b * star q.toReal)
    rw [star_star, norm_star] at length
    rw [length]
    exact mul_le_mul square partNear (norm_nonneg _) (by norm_num)
  have split : (bodyToEarth earth q.conjugate).toReal - (‖q.toReal‖ ^ 2) ^ 2 • b =
      ((bodyToEarth earth q.conjugate).toReal -
          star q.toReal * earth.vectorPart.toReal * q.toReal) +
        star q.toReal * (earth.vectorPart.toReal - q.toReal * b * star q.toReal) * q.toReal := by
    rw [mul_sub, sub_mul, star_mul_mul_mul, sub_add_sub_cancel]
  rw [split]
  refine (norm_add_le _ _).trans ((add_le_add bodyNear carried).trans ?_)
  linarith

/-! ## Bounds by the greatest component -/

/-- The greatest magnitude among the components of the vector part. -/
def largestPart (v : Quaternion) : ℚ :=
  max |v.x.toRat| (max |v.y.toRat| |v.z.toRat|)

private theorem abs_part_le (v : Quaternion) : |v.x.toRat| ≤ v.largestPart ∧
    |v.y.toRat| ≤ v.largestPart ∧ |v.z.toRat| ≤ v.largestPart :=
  ⟨le_max_left _ _, le_max_of_le_right (le_max_left _ _), le_max_of_le_right (le_max_right _ _)⟩

/-- The length of a vector is at most `√3` times its greatest component. -/
theorem norm_vectorPart_le (v : Quaternion) :
    ‖v.vectorPart.toReal‖ ≤ 17321 / 10 ^ 4 * v.largestPart := by
  obtain ⟨x, y, z⟩ := abs_part_le v
  have nonneg : (0 : ℝ) ≤ v.largestPart := by exact_mod_cast (abs_nonneg _).trans x
  have square : ∀ {c : ℚ}, |c| ≤ v.largestPart → (c : ℝ) ^ 2 ≤ v.largestPart ^ 2 := by
    intro c le
    exact_mod_cast sq_le_sq' (abs_le.mp le).1 (abs_le.mp le).2
  refine (sq_le_sq₀ (norm_nonneg _) (by positivity)).mp ?_
  rw [sq_norm, re_vectorPart, imI_toReal, imJ_toReal, imK_toReal, mul_pow]
  have sum := add_le_add (add_le_add (square x) (square y)) (square z)
  have slack := sq_nonneg (v.largestPart : ℝ)
  simp only [vectorPart, ofVector]
  norm_num
  linarith

/-- The fourth power of a rotation's norm is near one. -/
theorem IsRotation.abs_pow_sub_one_le (rotation : q.IsRotation) :
    |(‖q.toReal‖ ^ 2) ^ 2 - 1| ≤ 201 / 10 ^ 8 := by
  have unit := (Rat.cast_le (K := ℝ)).mpr rotation.unit
  rw [sq_norm_toReal]
  push_cast at unit
  have factors : (q.squaredModulus : ℝ) ^ 2 - 1 =
      (q.squaredModulus - 1) * (q.squaredModulus - 1 + 2) := by ring
  have sum := (abs_add_le ((q.squaredModulus : ℝ) - 1) 2).trans (add_le_add_left unit _)
  rw [factors, abs_mul]
  refine (mul_le_mul unit sum (abs_nonneg _) (by norm_num)).trans ?_
  norm_num

/-- A component near its exact image, which is scaled by the fourth power of the norm, is near the
component that was taken there and back. -/
theorem IsRotation.part_near (rotation : q.IsRotation) {x : Single} {part : ℚ}
    (finite : x.isFinite = true) (le : |part| ≤ v.largestPart)
    (near : |(x.toRat : ℝ) - (‖q.toReal‖ ^ 2) ^ 2 * part| ≤
      383 / 10 ^ 8 * ‖v.vectorPart.toReal‖ + 1 / 2 ^ 141) :
    x.Near part (v.largestPart / 10 ^ 5 + 1 / 2 ^ 120) := by
  refine ⟨finite, (Rat.cast_le (K := ℝ)).mp ?_⟩
  have length := norm_vectorPart_le v
  have le' : |(part : ℝ)| ≤ v.largestPart := by exact_mod_cast le
  have nonneg := (abs_nonneg (part : ℝ)).trans le'
  have scaled := mul_le_mul rotation.abs_pow_sub_one_le le' (abs_nonneg _) (by norm_num)
  rw [← abs_mul, sub_mul, one_mul] at scaled
  push_cast
  refine (abs_sub_le _ _ _).trans ((add_le_add near scaled).trans ?_)
  linarith

/-- A vector taken to the earth and back comes back, and neither result has a real part, up to a
hundred-thousandth of its greatest component. Its own real part is ignored. -/
theorem earthToBody_bodyToEarth_near {v attitude : Quaternion} (rotation : attitude.IsRotation)
    (bounded : ∀ part ∈ [v.x, v.y, v.z], part.Within (-2 ^ 60) (2 ^ 60)) :
    let earth := bodyToEarth v attitude
    let body := earthToBody earth attitude
    let error := v.largestPart / 10 ^ 5 + 1 / 2 ^ 120
    body.x.Near v.x.toRat error ∧ body.y.Near v.y.toRat error ∧ body.z.Near v.z.toRat error ∧
      earth.w.Near 0 error ∧ body.w.Near 0 error := by
  intro earth body error
  simp only [List.forall_mem_cons, List.not_mem_nil, IsEmpty.forall_iff, implies_true, and_true]
    at bounded
  obtain ⟨⟨finiteX, x⟩, ⟨finiteY, y⟩, ⟨finiteZ, z⟩⟩ := bounded
  have finite : v.vectorPart.IsFinite := ⟨hasValue_zero.1, finiteX, finiteY, finiteZ⟩
  obtain ⟨leX, leY, leZ⟩ := abs_part_le v
  have largest : (v.largestPart : ℝ) ≤ 2 ^ 60 := by
    exact_mod_cast max_le (abs_le.mpr x) (max_le (abs_le.mpr y) (abs_le.mpr z))
  have length := norm_vectorPart_le v
  have lengthNonneg := norm_nonneg v.vectorPart.toReal
  obtain ⟨earthFinite, earthNear⟩ := bodyToEarth_near rotation finite (by linarith)
  obtain ⟨bodyFinite, bodyNear⟩ := earthToBody_bodyToEarth_sub_le rotation finite (by linarith)
  obtain ⟨earthRe, -, -, -⟩ := abs_component_le
    (earth.toReal - attitude.toReal * v.vectorPart.toReal * star attitude.toReal)
  obtain ⟨bodyRe, bodyI, bodyJ, bodyK⟩ := abs_component_le
    (body.toReal - (‖attitude.toReal‖ ^ 2) ^ 2 • v.vectorPart.toReal)
  rw [Quaternion.re_sub, re_mul_mul_star _ (re_vectorPart v), sub_zero] at earthRe
  rw [Quaternion.re_sub, Quaternion.re_smul, re_vectorPart, smul_zero, sub_zero] at bodyRe
  rw [Quaternion.imI_sub, Quaternion.imI_smul, smul_eq_mul] at bodyI
  rw [Quaternion.imJ_sub, Quaternion.imJ_smul, smul_eq_mul] at bodyJ
  rw [Quaternion.imK_sub, Quaternion.imK_smul, smul_eq_mul] at bodyK
  have vanishing {w : Single} (finite : w.isFinite = true)
      (near : |(w.toRat : ℝ)| ≤ 383 / 10 ^ 8 * ‖v.vectorPart.toReal‖ + 1 / 2 ^ 141) :
      w.Near 0 error := by
    refine rotation.part_near finite ?_ ?_
    · rw [abs_zero]
      exact (abs_nonneg _).trans leX
    · rwa [Rat.cast_zero, mul_zero, sub_zero]
  have earthLe := earthRe.trans earthNear
  exact ⟨rotation.part_near bodyFinite.x leX (bodyI.trans bodyNear),
    rotation.part_near bodyFinite.y leY (bodyJ.trans bodyNear),
    rotation.part_near bodyFinite.z leZ (bodyK.trans bodyNear),
    vanishing earthFinite.w (earthLe.trans (by linarith)),
    vanishing bodyFinite.w (bodyRe.trans bodyNear)⟩

/-- A rotation whose components had to be rounded, and a vector without a number for a real part. -/
theorem earthToBody_bodyToEarth_near_of_rounded :
    IsRotation ⟨0.6, 0, -0.8, 0⟩ ∧
      (∀ part ∈ [(3 : Single), -0.1, 1000000], part.Within (-2 ^ 60) (2 ^ 60)) ∧
      (earthToBody (bodyToEarth ⟨.nan, 3, -0.1, 1000000⟩ ⟨0.6, 0, -0.8, 0⟩)
        ⟨0.6, 0, -0.8, 0⟩).x.Near 3
        (largestPart ⟨.nan, 3, -0.1, 1000000⟩ / 10 ^ 5 + 1 / 2 ^ 120) := by
  have rotation : IsRotation ⟨0.6, 0, -0.8, 0⟩ := by
    refine ⟨⟨?_, ?_, ?_, ?_⟩, ?_⟩ <;> decide +kernel
  have bounded : ∀ part ∈ [(3 : Single), -0.1, 1000000], part.Within (-2 ^ 60) (2 ^ 60) := by
    unfold Within
    decide +kernel
  have three : (3 : Single).toRat = 3 := by decide +kernel
  refine ⟨rotation, bounded, ?_⟩
  rw [← three]
  exact (earthToBody_bodyToEarth_near (v := ⟨.nan, 3, -0.1, 1000000⟩) rotation bounded).1

end FlightMath.Quaternion
