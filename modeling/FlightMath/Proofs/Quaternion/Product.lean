import FlightMath.Proofs.Rounding.Products
import FlightMath.Quaternion.Frame

/-! # Products of quaternions are near Hamilton products

The exact components of a quaternion make an element of the division ring of quaternions. There
conjugation is the star, the norm is multiplicative and a change of frame is a conjugation. A
computed product stays within `2 ^ (-20)` of the exact one, relative to the norms of its factors,
apart from what is lost below the normal numbers.
-/

open scoped Quaternion

namespace FlightMath.Quaternion

open Binary

/-- Every component is finite. -/
structure IsFinite (q : Quaternion) : Prop where
  w : q.w.isFinite = true
  x : q.x.isFinite = true
  y : q.y.isFinite = true
  z : q.z.isFinite = true

/-- The exact components, as rational numbers. -/
def toRat (q : Quaternion) : ℍ[ℚ] :=
  ⟨q.w.toRat, q.x.toRat, q.y.toRat, q.z.toRat⟩

/-- The exact components. -/
noncomputable def toReal (q : Quaternion) : ℍ[ℝ] :=
  ⟨q.w.toRat, q.x.toRat, q.y.toRat, q.z.toRat⟩

/-- The exact sum of the squared components. -/
def squaredModulus (q : Quaternion) : ℚ :=
  q.w.toRat ^ 2 + q.x.toRat ^ 2 + q.y.toRat ^ 2 + q.z.toRat ^ 2

variable {q r : Quaternion}

@[simp] theorem re_toRat (q : Quaternion) : q.toRat.re = q.w.toRat := rfl

@[simp] theorem imI_toRat (q : Quaternion) : q.toRat.imI = q.x.toRat := rfl

@[simp] theorem imJ_toRat (q : Quaternion) : q.toRat.imJ = q.y.toRat := rfl

@[simp] theorem imK_toRat (q : Quaternion) : q.toRat.imK = q.z.toRat := rfl

@[simp] theorem re_toReal (q : Quaternion) : q.toReal.re = q.w.toRat := rfl

@[simp] theorem imI_toReal (q : Quaternion) : q.toReal.imI = q.x.toRat := rfl

@[simp] theorem imJ_toReal (q : Quaternion) : q.toReal.imJ = q.y.toRat := rfl

@[simp] theorem imK_toReal (q : Quaternion) : q.toReal.imK = q.z.toRat := rfl

theorem sq_norm (a : ℍ[ℝ]) : ‖a‖ ^ 2 = a.re ^ 2 + a.imI ^ 2 + a.imJ ^ 2 + a.imK ^ 2 := by
  rw [sq, ← Quaternion.normSq_eq_norm_mul_self, Quaternion.normSq_def']

theorem sq_norm_toReal (q : Quaternion) : ‖q.toReal‖ ^ 2 = q.squaredModulus := by
  rw [sq_norm, squaredModulus]
  push_cast
  rfl

/-- No component exceeds the norm. -/
theorem abs_component_le (a : ℍ[ℝ]) :
    |a.re| ≤ ‖a‖ ∧ |a.imI| ≤ ‖a‖ ∧ |a.imJ| ≤ ‖a‖ ∧ |a.imK| ≤ ‖a‖ := by
  have squares := sq_norm a
  have component : ∀ c : ℝ, c ^ 2 ≤ ‖a‖ ^ 2 → |c| ≤ ‖a‖ := fun c le =>
    abs_le_of_sq_le_sq le (norm_nonneg a)
  have re := sq_nonneg a.re
  have imI := sq_nonneg a.imI
  have imJ := sq_nonneg a.imJ
  have imK := sq_nonneg a.imK
  exact ⟨component _ (by linarith), component _ (by linarith), component _ (by linarith),
    component _ (by linarith)⟩

private theorem abs_toRat_le_norm {c : Single} (mem : c ∈ q.toList) :
    |(c.toRat : ℝ)| ≤ ‖q.toReal‖ := by
  obtain ⟨w, x, y, z⟩ := abs_component_le q.toReal
  simp only [toList, List.mem_cons, List.not_mem_nil, or_false] at mem
  rcases mem with rfl | rfl | rfl | rfl
  exacts [w, x, y, z]

/-- The norm is at most twice a bound on the components. -/
theorem norm_le_of_abs_component_le {a : ℍ[ℝ]} {bound : ℝ} (re : |a.re| ≤ bound)
    (imI : |a.imI| ≤ bound) (imJ : |a.imJ| ≤ bound) (imK : |a.imK| ≤ bound) :
    ‖a‖ ≤ 2 * bound := by
  have nonneg : 0 ≤ bound := (abs_nonneg _).trans re
  refine (sq_le_sq₀ (norm_nonneg a) (by positivity)).mp ?_
  have square : ∀ {c : ℝ}, |c| ≤ bound → c ^ 2 ≤ bound ^ 2 := fun le =>
    sq_le_sq' (abs_le.mp le).1 (abs_le.mp le).2
  rw [sq_norm]
  linarith [square re, square imI, square imJ, square imK]

/-- The products that make up a component of a product add up to no more than the product of the
norms, whatever their signs. -/
private theorem abs_products_le (a b : ℍ[ℝ]) :
    |a.re * b.re| + |a.imI * b.imI| + |a.imJ * b.imJ| + |a.imK * b.imK| ≤ ‖a‖ * ‖b‖ ∧
      |a.re * b.imI| + |a.imI * b.re| + |a.imJ * b.imK| + |a.imK * b.imJ| ≤ ‖a‖ * ‖b‖ ∧
      |a.re * b.imJ| + |a.imI * b.imK| + |a.imJ * b.re| + |a.imK * b.imI| ≤ ‖a‖ * ‖b‖ ∧
      |a.re * b.imK| + |a.imI * b.imJ| + |a.imJ * b.imI| + |a.imK * b.re| ≤ ‖a‖ * ‖b‖ := by
  have paired : ∀ p q r s : ℝ, p ^ 2 + q ^ 2 + r ^ 2 + s ^ 2 = ‖b‖ ^ 2 →
      |a.re * p| + |a.imI * q| + |a.imJ * r| + |a.imK * s| ≤ ‖a‖ * ‖b‖ := by
    intro p q r s squares
    have cauchy := Finset.sum_mul_sq_le_sq_mul_sq Finset.univ ![|a.re|, |a.imI|, |a.imJ|, |a.imK|]
      ![|p|, |q|, |r|, |s|]
    simp only [Fin.sum_univ_four, Matrix.cons_val, ← abs_mul, sq_abs] at cauchy
    rw [squares, ← sq_norm, ← mul_pow] at cauchy
    exact (abs_le_of_sq_le_sq' cauchy (by positivity)).2
  have squares := sq_norm b
  exact ⟨paired _ _ _ _ squares.symm, paired _ _ _ _ (by rw [squares]; ring),
    paired _ _ _ _ (by rw [squares]; ring), paired _ _ _ _ (by rw [squares]; ring)⟩

/-! ## Bounded components -/

/-- Every component is finite and within the limit. -/
def BoundedBy (q : Quaternion) (limit : ℚ) : Prop :=
  ∀ c ∈ q.toList, c.Within (-limit) limit

theorem BoundedBy.isFinite {limit : ℚ} (bounded : q.BoundedBy limit) : q.IsFinite :=
  ⟨(bounded _ q.w_mem_toList).1, (bounded _ q.x_mem_toList).1, (bounded _ q.y_mem_toList).1,
    (bounded _ q.z_mem_toList).1⟩

theorem BoundedBy.abs_toRat_le {limit : ℚ} (bounded : q.BoundedBy limit) {c : Single}
    (mem : c ∈ q.toList) : |c.toRat| ≤ limit :=
  abs_le.mpr (bounded c mem).2

theorem BoundedBy.norm_le {limit : ℚ} (bounded : q.BoundedBy limit) :
    ‖q.toReal‖ ≤ 2 * limit := by
  have component {c : Single} (mem : c ∈ q.toList) : |(c.toRat : ℝ)| ≤ limit := by
    exact_mod_cast bounded.abs_toRat_le mem
  exact norm_le_of_abs_component_le (component q.w_mem_toList) (component q.x_mem_toList)
    (component q.y_mem_toList) (component q.z_mem_toList)

/-! ## Conjugates and vector parts -/

theorem toRat_neg (x : Single) : (-x).toRat = -x.toRat := by
  cases x with
  | nan => rfl
  | infinite negative => rfl
  | finite negative units fits => exact (hasValue_finite negative units fits).neg.2

@[simp] theorem toReal_conjugate (q : Quaternion) : q.conjugate.toReal = star q.toReal := by
  ext <;> simp [conjugate, toRat_neg]

theorem IsFinite.conjugate (finite : q.IsFinite) : q.conjugate.IsFinite :=
  ⟨finite.w, (hasValue_toRat finite.x).neg.1, (hasValue_toRat finite.y).neg.1,
    (hasValue_toRat finite.z).neg.1⟩

theorem IsFinite.vectorPart (finite : q.IsFinite) : q.vectorPart.IsFinite :=
  ⟨hasValue_zero.1, finite.x, finite.y, finite.z⟩

/-- Dropping the real part of an approximation to a vector does not move it further away. -/
theorem norm_toReal_vectorPart_sub_le {exact : ℍ[ℝ]} (vector : exact.re = 0) :
    ‖q.vectorPart.toReal - exact‖ ≤ ‖q.toReal - exact‖ := by
  have zero := (hasValue_zero (F := FloatFormat.single)).2
  refine (sq_le_sq₀ (norm_nonneg _) (norm_nonneg _)).mp ?_
  rw [sq_norm, sq_norm]
  simp only [Quaternion.re_sub, Quaternion.imI_sub, Quaternion.imJ_sub, Quaternion.imK_sub,
    re_toReal, imI_toReal, imJ_toReal, imK_toReal, vectorPart, ofVector, zero, vector,
    Rat.cast_zero, sub_zero]
  linarith [sq_nonneg (q.w.toRat : ℝ)]

/-! ## Products -/

/-- The magnitudes of the four products in each component of a Hamilton product, added up. -/
def productSizes (q r : Quaternion) : ℍ[ℚ] where
  re := |q.w.toRat * r.w.toRat| + |q.x.toRat * r.x.toRat| + |q.y.toRat * r.y.toRat| +
    |q.z.toRat * r.z.toRat|
  imI := |q.w.toRat * r.x.toRat| + |q.x.toRat * r.w.toRat| + |q.y.toRat * r.z.toRat| +
    |q.z.toRat * r.y.toRat|
  imJ := |q.w.toRat * r.y.toRat| + |q.x.toRat * r.z.toRat| + |q.y.toRat * r.w.toRat| +
    |q.z.toRat * r.x.toRat|
  imK := |q.w.toRat * r.z.toRat| + |q.x.toRat * r.y.toRat| + |q.y.toRat * r.x.toRat| +
    |q.z.toRat * r.w.toRat|

/-- Each component of the computed product is a sum of four products of components. -/
theorem mul_sumOfProducts (left : q.IsFinite) (right : r.IsFinite)
    (bounded : ∀ a ∈ q.toList, ∀ b ∈ r.toList, |a.toRat * b.toRat| ≤ 2 ^ 124) :
    SumOfProducts 4 (q * r).w (q.toRat * r.toRat).re (productSizes q r).re ∧
      SumOfProducts 4 (q * r).x (q.toRat * r.toRat).imI (productSizes q r).imI ∧
      SumOfProducts 4 (q * r).y (q.toRat * r.toRat).imJ (productSizes q r).imJ ∧
      SumOfProducts 4 (q * r).z (q.toRat * r.toRat).imK (productSizes q r).imK := by
  simp only [toList, List.forall_mem_cons, List.not_mem_nil, IsEmpty.forall_iff, implies_true,
    and_true] at bounded
  obtain ⟨⟨ww, wx, wy, wz⟩, ⟨xw, xx, xy, xz⟩, ⟨yw, yx, yy, yz⟩, ⟨zw, zx, zy, zz⟩⟩ := bounded
  have product {a b : Single} (finite : a.isFinite = true) (finite' : b.isFinite = true)
      (le : |a.toRat * b.toRat| ≤ 2 ^ 124) : (a * b).RoundedOnce (a.toRat * b.toRat) :=
    (hasValue_toRat finite).roundedOnce_mul (hasValue_toRat finite') (le.trans (by norm_num))
  have w := sumOfProducts_four (product left.w right.w ww) (product left.x right.x xx).neg
    (product left.y right.y yy).neg (product left.z right.z zz).neg
    (by simp only [abs_neg]; linarith)
  have x := sumOfProducts_four (product left.w right.x wx) (product left.x right.w xw)
    (product left.y right.z yz) (product left.z right.y zy).neg (by simp only [abs_neg]; linarith)
  have y := sumOfProducts_four (product left.w right.y wy) (product left.x right.z xz).neg
    (product left.y right.w yw) (product left.z right.x zx) (by simp only [abs_neg]; linarith)
  have z := sumOfProducts_four (product left.w right.z wz) (product left.x right.y xy)
    (product left.y right.x yx).neg (product left.z right.w zw) (by simp only [abs_neg]; linarith)
  simp only [abs_neg, ← Rat.sub_eq_add_neg] at w x y z
  rw [Quaternion.re_mul, Quaternion.imI_mul, Quaternion.imJ_mul, Quaternion.imK_mul]
  exact ⟨w, x, y, z⟩

/-- A quaternion that is finite and within an error of an exact one. -/
structure Approximates (q : Quaternion) (exact : ℍ[ℝ]) (error : ℝ) : Prop where
  finite : q.IsFinite
  near : ‖q.toReal - exact‖ ≤ error

theorem IsFinite.approximates (finite : q.IsFinite) : q.Approximates q.toReal 0 :=
  ⟨finite, by rw [sub_self, norm_zero]⟩

/-- The computed product of finite quaternions is finite and near the Hamilton product. -/
theorem mul_near (left : q.IsFinite) (right : r.IsFinite)
    (bounded : ‖q.toReal‖ * ‖r.toReal‖ ≤ 2 ^ 124) :
    (q * r).Approximates (q.toReal * r.toReal)
      (‖q.toReal‖ * ‖r.toReal‖ / 2 ^ 20 + 1 / 2 ^ 145) := by
  obtain ⟨sizeW, sizeX, sizeY, sizeZ⟩ := abs_products_le q.toReal r.toReal
  have small : ∀ a ∈ q.toList, ∀ b ∈ r.toList, |a.toRat * b.toRat| ≤ 2 ^ 124 := by
    intro a memA b memB
    have real : |(a.toRat : ℝ) * b.toRat| ≤ 2 ^ 124 := by
      rw [abs_mul]
      exact (mul_le_mul (abs_toRat_le_norm memA) (abs_toRat_le_norm memB) (abs_nonneg _)
        (norm_nonneg _)).trans bounded
    exact_mod_cast real
  obtain ⟨w, x, y, z⟩ := mul_sumOfProducts left right small
  have part {c : Single} {exact size : ℚ} (sum : SumOfProducts 4 c exact size)
      (le : (size : ℝ) ≤ ‖q.toReal‖ * ‖r.toReal‖) :
      |(c.toRat : ℝ) - exact| ≤ ‖q.toReal‖ * ‖r.toReal‖ / 2 ^ 21 + 1 / 2 ^ 146 := by
    have near := (Rat.cast_le (K := ℝ)).mpr sum.near
    push_cast at near
    linarith
  refine ⟨⟨w.finite, x.finite, y.finite, z.finite⟩, ?_⟩
  have components : ‖(q * r).toReal - q.toReal * r.toReal‖ ≤
      2 * (‖q.toReal‖ * ‖r.toReal‖ / 2 ^ 21 + 1 / 2 ^ 146) := by
    apply norm_le_of_abs_component_le
    · simpa using part w (by simpa [productSizes] using sizeW)
    · simpa using part x (by simpa [productSizes] using sizeX)
    · simpa using part y (by simpa [productSizes] using sizeY)
    · simpa using part z (by simpa [productSizes] using sizeZ)
  linarith

/-- A product of approximations adds their errors, each times the other factor, to its own. -/
theorem Approximates.mul {a b : ℍ[ℝ]} {error error' : ℝ} (left : q.Approximates a error)
    (right : r.Approximates b error') (bounded : (‖a‖ + error) * (‖b‖ + error') ≤ 2 ^ 124) :
    (q * r).Approximates (a * b) ((‖a‖ + error) * (‖b‖ + error') / 2 ^ 20 + 1 / 2 ^ 145 +
      (error * (‖b‖ + error') + ‖a‖ * error')) := by
  have leftNorm : ‖q.toReal‖ ≤ ‖a‖ + error :=
    (norm_le_norm_add_norm_sub' q.toReal a).trans (add_le_add_right left.near _)
  have rightNorm : ‖r.toReal‖ ≤ ‖b‖ + error' :=
    (norm_le_norm_add_norm_sub' r.toReal b).trans (add_le_add_right right.near _)
  have norms := mul_le_mul leftNorm rightNorm (norm_nonneg _) ((norm_nonneg _).trans leftNorm)
  obtain ⟨finite, near⟩ := mul_near left.finite right.finite (norms.trans bounded)
  refine ⟨finite, ?_⟩
  have split : (q * r).toReal - a * b = ((q * r).toReal - q.toReal * r.toReal) +
      ((q.toReal - a) * r.toReal + a * (r.toReal - b)) := by
    noncomm_ring
  have leftError : ‖(q.toReal - a) * r.toReal‖ ≤ error * (‖b‖ + error') := by
    rw [norm_mul]
    exact mul_le_mul left.near rightNorm (norm_nonneg _) ((norm_nonneg _).trans left.near)
  have rightError : ‖a * (r.toReal - b)‖ ≤ ‖a‖ * error' := by
    rw [norm_mul]
    exact mul_le_mul_of_nonneg_left right.near (norm_nonneg a)
  rw [split]
  refine (norm_add_le _ _).trans (add_le_add (near.trans ?_)
    ((norm_add_le _ _).trans (add_le_add leftError rightError)))
  gcongr

end FlightMath.Quaternion
