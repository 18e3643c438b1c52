import FlightMath.Proofs.Quaternion.Product
import FlightMath.Proofs.Rounding.Squares

/-! # A quaternion times its conjugate

The exact product is the norm. The computed one has the computed norm for a real part, because both
add the same squares in the same order. Of its vector part the first component cancels in pairs. The
other two add and take off the same two products in alternation, which leaves what the additions
lost, and neither product is rounded to more than the norm.
-/

namespace FlightMath

open FloatFormat

namespace Binary

variable {x y : Single} {a b bound : ℚ}

/-! ## Residues -/

/-- What is left of a sum when both summands are taken off again. -/
def residue (x y : Single) : Single :=
  x + y - x - y

/-- Sums and differences of values far from overflow only have a relative error. -/
theorem HasValue.add_relative (left : x.HasValue a) (right : y.HasValue b)
    (bounded : |a + b| ≤ 2 ^ 127) :
    ∃ sum, (x + y).HasValue sum ∧ |sum - (a + b)| ≤ |a + b| / 2 ^ 24 :=
  ⟨_, left.add right (single_le_largest (by norm_num) bounded), abs_nearest_add_sub_le left right⟩

/-- The residue is what three additions lose. The first difference is the second summand and the
error of the sum. -/
theorem HasValue.residue_near (left : x.HasValue a) (right : y.HasValue b) (leftLe : |a| ≤ bound)
    (rightLe : |b| ≤ bound) (small : bound ≤ 2 ^ 125) : (residue x y).Near 0 (bound / 2 ^ 22) := by
  have nonneg : 0 ≤ bound := (abs_nonneg a).trans leftLe
  have total : |a + b| ≤ 2 * bound := (abs_add_le a b).trans (by linarith)
  obtain ⟨sum, hasSum, sumNear⟩ := left.add_relative right (by linarith)
  have first : |sum + -a| ≤ |b| + |a + b| / 2 ^ 24 := by
    have split : sum + -a = b + (sum - (a + b)) := by ring
    rw [split]
    exact (abs_add_le _ _).trans (add_le_add_right sumNear _)
  obtain ⟨rest, hasRest, restNear⟩ := hasSum.add_relative left.neg (by linarith)
  have second : |rest + -b| ≤ |a + b| / 2 ^ 24 + |sum + -a| / 2 ^ 24 := by
    have split : rest + -b = (sum - (a + b)) + (rest - (sum + -a)) := by ring
    rw [split]
    exact (abs_add_le _ _).trans (add_le_add sumNear restNear)
  obtain ⟨left', hasLeft, leftNear⟩ := hasRest.add_relative right.neg (by linarith)
  refine HasValue.near hasLeft ?_
  have size := abs_sub_abs_le_abs_sub left' (rest + -b)
  rw [sub_zero]
  linarith

/-- A value and its opposite cancel, and so does a second pair after them. -/
theorem HasValue.cancel_pairs (left : x.HasValue a) (right : y.HasValue b) :
    (-x + x + -y + y).HasValue 0 := by
  have nothing : |(0 : ℚ)| ≤ single.largest := by
    rw [abs_zero]
    exact (abs_nonneg a).trans left.abs_le_largest
  have first := left.neg.add left (by rwa [neg_add_cancel])
  rw [neg_add_cancel, nearest_zero] at first
  have second := first.add right.neg (by rw [zero_add]; exact right.neg.abs_le_largest)
  rw [zero_add, nearest_of_grid right.neg.grid] at second
  have third := second.add right (by rwa [neg_add_cancel])
  rwa [neg_add_cancel, nearest_zero] at third

end Binary

namespace Quaternion

open Binary

variable {q : Quaternion}

/-! ## The norm -/

private theorem norm_eq_roundedSquares (q : Quaternion) :
    q.norm = roundedSquares q.w [q.x, q.y, q.z] := rfl

theorem BoundedBy.norm_le_two_pow (bounded : q.BoundedBy (2 ^ 60)) :
    q.norm.isFinite = true ∧ q.norm.toRat ≤ 2 ^ 125 := by
  have square {c : Single} (mem : c ∈ q.toList) :
      (c * c).RoundedOnce (c.toRat * c.toRat) ∧ |c.toRat * c.toRat| ≤ 2 ^ 120 := by
    have le := bounded.abs_toRat_le mem
    have size : |c.toRat * c.toRat| ≤ 2 ^ 120 := by
      rw [abs_mul]
      exact (mul_le_mul le le (abs_nonneg _) (by positivity)).trans_eq (by norm_num)
    have value := hasValue_toRat (bounded c mem).1
    exact ⟨value.roundedOnce_mul value (size.trans (by norm_num)), size⟩
  obtain ⟨w, sizeW⟩ := square q.w_mem_toList
  obtain ⟨x, sizeX⟩ := square q.x_mem_toList
  obtain ⟨y, sizeY⟩ := square q.y_mem_toList
  obtain ⟨z, sizeZ⟩ := square q.z_mem_toList
  have sum := sumOfProducts_four w x y z (by linarith)
  have upper := (abs_le.mp sum.near_four.near).2
  have exactLe := (le_abs_self _).trans sum.exact_le
  refine ⟨sum.finite, ?_⟩
  change q.norm.toRat - _ ≤ _ at upper
  linarith

/-- No product of two components is rounded to more than the norm. -/
private theorem exists_hasValue_mul_le_norm (finite : q.norm.isFinite = true) {c d : Single}
    (memC : c ∈ q.toList) (memD : d ∈ q.toList) :
    ∃ p, (c * d).HasValue p ∧ |p| ≤ q.norm.toRat := by
  rw [norm_eq_roundedSquares] at finite ⊢
  have squares := le_roundedSquares finite
  obtain ⟨s, left, -, leftLe⟩ := squares c memC
  obtain ⟨t, right, -, rightLe⟩ := squares d memD
  exact exists_hasValue_mul_le left right leftLe rightLe

/-! ## The product -/

/-- The components of the product, in terms of the products of components. -/
theorem mul_conjugate (q : Quaternion) : q * q.conjugate =
    ⟨q.norm, -(q.w * q.x) + q.w * q.x + -(q.y * q.z) + q.y * q.z,
      residue (-(q.w * q.y)) (q.x * q.z), residue (-(q.x * q.y)) (-(q.w * q.z))⟩ := by
  simp only [mul_def, conjugate, norm, dot, residue, Binary.mul_neg, Binary.sub_eq_add_neg,
    Binary.neg_neg, Binary.mul_comm q.x q.w, Binary.mul_comm q.z q.y, Binary.mul_comm q.y q.w,
    Binary.mul_comm q.z q.x, Binary.mul_comm q.y q.x, Binary.mul_comm q.z q.w,
    Binary.add_comm (-(q.x * q.y))]

/-- The product with the conjugate has the norm for a real part and a vector part of zero, up to a
rest that is small against the norm. -/
theorem mul_conjugate_near_norm (bounded : q.BoundedBy (2 ^ 60)) :
    q.norm.isFinite = true ∧ (q * q.conjugate).w = q.norm ∧ (q * q.conjugate).x.HasValue 0 ∧
      (q * q.conjugate).y.Near 0 (q.norm.toRat / 2 ^ 22) ∧
      (q * q.conjugate).z.Near 0 (q.norm.toRat / 2 ^ 22) := by
  obtain ⟨finite, small⟩ := bounded.norm_le_two_pow
  have product {c d : Single} (memC : c ∈ q.toList) (memD : d ∈ q.toList) :=
    exists_hasValue_mul_le_norm finite memC memD
  obtain ⟨wx, hasWX, -⟩ := product q.w_mem_toList q.x_mem_toList
  obtain ⟨yz, hasYZ, -⟩ := product q.y_mem_toList q.z_mem_toList
  obtain ⟨wy, hasWY, leWY⟩ := product q.w_mem_toList q.y_mem_toList
  obtain ⟨xz, hasXZ, leXZ⟩ := product q.x_mem_toList q.z_mem_toList
  obtain ⟨xy, hasXY, leXY⟩ := product q.x_mem_toList q.y_mem_toList
  obtain ⟨wz, hasWZ, leWZ⟩ := product q.w_mem_toList q.z_mem_toList
  rw [mul_conjugate]
  exact ⟨finite, rfl, hasWX.cancel_pairs hasYZ,
    hasWY.neg.residue_near hasXZ (by rwa [abs_neg]) leXZ small,
    hasXY.neg.residue_near hasWZ.neg (by rwa [abs_neg]) (by rwa [abs_neg]) small⟩

/-- A quaternion whose product with its conjugate has a rest. -/
theorem mul_conjugate_near_norm_of_rounded :
    BoundedBy ⟨0.1, 1000000, -0.3, 1e-30⟩ (2 ^ 60) ∧
      ((⟨0.1, 1000000, -0.3, 1e-30⟩ : Quaternion) * conjugate ⟨0.1, 1000000, -0.3, 1e-30⟩).y.Near 0
        ((norm ⟨0.1, 1000000, -0.3, 1e-30⟩).toRat / 2 ^ 22) := by
  have bounded : BoundedBy ⟨0.1, 1000000, -0.3, 1e-30⟩ (2 ^ 60) := by
    unfold BoundedBy Within
    decide +kernel
  exact ⟨bounded, (mul_conjugate_near_norm bounded).2.2.2.1⟩

end Quaternion

end FlightMath
