import FlightMath.Proofs.Quaternion.Product

/-! # The Hamilton product up to rounding

A component of a computed product may cancel, so it is near the exact one only relative to the
magnitudes of its four products. That is enough for the product to be nearly associative: either
way of multiplying three quaternions is near their exact product, relative to the product of their
norms.
-/

open scoped Quaternion

namespace FlightMath.Quaternion

open Binary

variable {a b c q : Quaternion}

/-! ## Three factors -/

private theorem norm_le_sumAbs (q : Quaternion) : ‖q.toReal‖ ≤ sumAbs q.toList := by
  have w := abs_nonneg (q.w.toRat : ℝ)
  have x := abs_nonneg (q.x.toRat : ℝ)
  have y := abs_nonneg (q.y.toRat : ℝ)
  have z := abs_nonneg (q.z.toRat : ℝ)
  have sum : (sumAbs q.toList : ℝ) = |(q.w.toRat : ℝ)| + |(q.x.toRat : ℝ)| + |(q.y.toRat : ℝ)| +
      |(q.z.toRat : ℝ)| := by
    simp [sumAbs, toList, add_assoc]
  rw [sum]
  refine (sq_le_sq₀ (norm_nonneg _) (by positivity)).mp ?_
  rw [sq_norm, re_toReal, imI_toReal, imJ_toReal, imK_toReal, ← sq_abs (q.w.toRat : ℝ),
    ← sq_abs (q.x.toRat : ℝ), ← sq_abs (q.y.toRat : ℝ), ← sq_abs (q.z.toRat : ℝ)]
  nlinarith [mul_nonneg w x, mul_nonneg w y, mul_nonneg w z, mul_nonneg x y, mul_nonneg x z,
    mul_nonneg y z]

/-- The error of a rounded product times one more factor. -/
private theorem error_mul_le {size factor : ℝ} (nonneg : 0 ≤ size) (nonneg' : 0 ≤ factor)
    (small : size ≤ 2 ^ 62) (small' : factor ≤ 2 ^ 31) :
    let error := size / 2 ^ 20 + 1 / 2 ^ 145
    (size + error) * factor ≤ 2 ^ 124 ∧
      (size + error) * factor / 2 ^ 20 + 1 / 2 ^ 145 + error * factor ≤
        size * factor / 2 ^ 18 + 1 / 2 ^ 112 := by
  intro error
  have product : size * factor ≤ 2 ^ 62 * 2 ^ 31 :=
    mul_le_mul small small' nonneg' (by positivity)
  have productNonneg := mul_nonneg nonneg nonneg'
  simp only [error]
  constructor <;> linarith

/-- Either way of multiplying three quaternions is near their exact product. -/
theorem mul_mul_near (finiteA : a.IsFinite) (finiteB : b.IsFinite) (finiteC : c.IsFinite)
    (normA : ‖a.toReal‖ ≤ 2 ^ 31) (normB : ‖b.toReal‖ ≤ 2 ^ 31) (normC : ‖c.toReal‖ ≤ 2 ^ 31) :
    let exact := a.toReal * b.toReal * c.toReal
    let error := ‖a.toReal‖ * ‖b.toReal‖ * ‖c.toReal‖ / 2 ^ 18 + 1 / 2 ^ 112
    (a * b * c).Approximates exact error ∧ (a * (b * c)).Approximates exact error := by
  intro exact error
  have nonnegA := norm_nonneg a.toReal
  have nonnegB := norm_nonneg b.toReal
  have nonnegC := norm_nonneg c.toReal
  have smallAB : ‖a.toReal‖ * ‖b.toReal‖ ≤ 2 ^ 62 :=
    (mul_le_mul normA normB nonnegB (by positivity)).trans_eq (by norm_num)
  have smallBC : ‖b.toReal‖ * ‖c.toReal‖ ≤ 2 ^ 62 :=
    (mul_le_mul normB normC nonnegC (by positivity)).trans_eq (by norm_num)
  constructor
  · have inner := mul_near finiteA finiteB (smallAB.trans (by norm_num))
    obtain ⟨bounded, le⟩ := error_mul_le (mul_nonneg nonnegA nonnegB) nonnegC smallAB normC
    have outer := inner.mul finiteC.approximates (by rwa [norm_mul, add_zero])
    rw [norm_mul, add_zero, mul_zero, add_zero] at outer
    exact ⟨outer.finite, outer.near.trans le⟩
  · have inner := mul_near finiteB finiteC (smallBC.trans (by norm_num))
    obtain ⟨bounded, le⟩ := error_mul_le (mul_nonneg nonnegB nonnegC) nonnegA smallBC normA
    have outer := finiteA.approximates.mul inner (by rwa [norm_mul, add_zero, mul_comm])
    rw [norm_mul, add_zero, zero_mul, zero_add, ← mul_assoc] at outer
    refine ⟨outer.finite, outer.near.trans (le_trans (le_of_eq ?_) (le.trans_eq ?_))⟩ <;> ring

/-- The two ways of multiplying three quaternions are near each other. -/
theorem mul_assoc_near (boundedA : a.BoundedBy (2 ^ 30)) (boundedB : b.BoundedBy (2 ^ 30))
    (boundedC : c.BoundedBy (2 ^ 30)) :
    (a * b * c).Approximates (a * (b * c)).toReal
      (sumAbs a.toList * sumAbs b.toList * sumAbs c.toList / 2 ^ 17 + 1 / 2 ^ 80) ∧
      (a * (b * c)).IsFinite := by
  have norm {q : Quaternion} (bounded : q.BoundedBy (2 ^ 30)) : ‖q.toReal‖ ≤ 2 ^ 31 :=
    bounded.norm_le.trans_eq (by norm_num)
  obtain ⟨left, right⟩ := mul_mul_near boundedA.isFinite boundedB.isFinite boundedC.isFinite
    (norm boundedA) (norm boundedB) (norm boundedC)
  refine ⟨⟨left.finite, ?_⟩, right.finite⟩
  have norms : ‖a.toReal‖ * ‖b.toReal‖ * ‖c.toReal‖ ≤
      sumAbs a.toList * sumAbs b.toList * sumAbs c.toList := by
    have first := norm_le_sumAbs a
    have second := norm_le_sumAbs b
    have sizeA := (norm_nonneg _).trans first
    have sizeB := (norm_nonneg _).trans second
    have pair := mul_le_mul first second (norm_nonneg _) sizeA
    exact mul_le_mul pair (norm_le_sumAbs c) (norm_nonneg _) (mul_nonneg sizeA sizeB)
  have rightNear := right.near
  rw [norm_sub_rev] at rightNear
  refine (norm_sub_le_norm_sub_add_norm_sub _ _ _).trans
    ((add_le_add left.near rightNear).trans ?_)
  linarith

/-! ## The law -/

/-- Each component of a computed product is near that of the Hamilton product, relative to the
magnitudes of its four products, and multiplication is associative up to the product of the sums of
magnitudes of all three factors. -/
theorem mul_near_hamilton (boundedA : a.BoundedBy (2 ^ 60)) (boundedB : b.BoundedBy (2 ^ 60)) :
    ((a * b).w.Near (a.toRat * b.toRat).re ((productSizes a b).re / 2 ^ 21 + 1 / 2 ^ 146) ∧
      (a * b).x.Near (a.toRat * b.toRat).imI ((productSizes a b).imI / 2 ^ 21 + 1 / 2 ^ 146) ∧
      (a * b).y.Near (a.toRat * b.toRat).imJ ((productSizes a b).imJ / 2 ^ 21 + 1 / 2 ^ 146) ∧
      (a * b).z.Near (a.toRat * b.toRat).imK ((productSizes a b).imK / 2 ^ 21 + 1 / 2 ^ 146)) ∧
    ∀ c : Quaternion, a.BoundedBy (2 ^ 30) → b.BoundedBy (2 ^ 30) → c.BoundedBy (2 ^ 30) →
      let other := a * (b * c)
      let error := sumAbs a.toList * sumAbs b.toList * sumAbs c.toList / 2 ^ 17 + 1 / 2 ^ 80
      other.IsFinite ∧ (a * b * c).w.Near other.w.toRat error ∧
        (a * b * c).x.Near other.x.toRat error ∧ (a * b * c).y.Near other.y.toRat error ∧
        (a * b * c).z.Near other.z.toRat error := by
  constructor
  · have small : ∀ p ∈ a.toList, ∀ q ∈ b.toList, |p.toRat * q.toRat| ≤ 2 ^ 124 := by
      intro p memP q memQ
      rw [abs_mul]
      exact (mul_le_mul (boundedA.abs_toRat_le memP) (boundedB.abs_toRat_le memQ) (abs_nonneg _)
        (by positivity)).trans (by norm_num)
    obtain ⟨w, x, y, z⟩ := mul_sumOfProducts boundedA.isFinite boundedB.isFinite small
    exact ⟨w.near_four, x.near_four, y.near_four, z.near_four⟩
  · intro c smallA smallB smallC other error
    obtain ⟨near, finite⟩ := mul_assoc_near smallA smallB smallC
    obtain ⟨w, x, y, z⟩ := abs_component_le ((a * b * c).toReal - other.toReal)
    have part {p q : Single} (finite : p.isFinite = true)
        (le : |(p.toRat : ℝ) - q.toRat| ≤ ‖(a * b * c).toReal - other.toReal‖) :
        p.Near q.toRat error := by
      refine ⟨finite, (Rat.cast_le (K := ℝ)).mp ?_⟩
      push_cast [error]
      exact le.trans near.near
    exact ⟨finite, part near.finite.w w, part near.finite.x x, part near.finite.y y,
      part near.finite.z z⟩

/-- Components that had to be rounded, one of whose products is below the normal numbers. -/
theorem mul_near_hamilton_of_rounded :
    let a : Quaternion := ⟨0.1, -0.2, 1e-30, 1000000000⟩
    let b : Quaternion := ⟨0.2, 0.1, 1000000000, -1e-12⟩
    let c : Quaternion := ⟨-0.7, 1e-3, 0, 0.1⟩
    (a.BoundedBy (2 ^ 60) ∧ b.BoundedBy (2 ^ 60)) ∧
      (a * b).w.Near (a.toRat * b.toRat).re ((productSizes a b).re / 2 ^ 21 + 1 / 2 ^ 146) ∧
      (a.BoundedBy (2 ^ 30) ∧ b.BoundedBy (2 ^ 30) ∧ c.BoundedBy (2 ^ 30)) ∧
      (a * b * c).w.Near (a * (b * c)).w.toRat
        (sumAbs a.toList * sumAbs b.toList * sumAbs c.toList / 2 ^ 17 + 1 / 2 ^ 80) := by
  intro a b c
  have boundedA : a.BoundedBy (2 ^ 60) := by unfold BoundedBy Within; decide +kernel
  have boundedB : b.BoundedBy (2 ^ 60) := by unfold BoundedBy Within; decide +kernel
  have smallA : a.BoundedBy (2 ^ 30) := by unfold BoundedBy Within; decide +kernel
  have smallB : b.BoundedBy (2 ^ 30) := by unfold BoundedBy Within; decide +kernel
  have smallC : c.BoundedBy (2 ^ 30) := by unfold BoundedBy Within; decide +kernel
  obtain ⟨⟨w, -⟩, assoc⟩ := mul_near_hamilton boundedA boundedB
  exact ⟨⟨boundedA, boundedB⟩, w, ⟨smallA, smallB, smallC⟩,
    (assoc c smallA smallB smallC).2.1⟩

end FlightMath.Quaternion
