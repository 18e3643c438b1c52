import FlightMath.Proofs.Rounding.Agreement
import FlightMath.Quaternion.Frame

/-! # An attitude and its opposite

A quaternion and its opposite stand for one attitude, and an estimator may deliver either. Products
cannot tell which: reversing all signs of a factor reverses those of the product, apart from the
signs of zeros, and a change of frame has the attitude as a factor twice. This holds of all values,
also where infinities meet and leave NaN behind.
-/

namespace FlightMath.Quaternion

open Binary

variable {q r q' r' : Quaternion}

/-- Every component agrees with that of the other quaternion. -/
structure Agrees (q r : Quaternion) : Prop where
  w : q.w.Agrees r.w
  x : q.x.Agrees r.x
  y : q.y.Agrees r.y
  z : q.z.Agrees r.z

@[refl] theorem Agrees.refl (q : Quaternion) : q.Agrees q :=
  ⟨.refl _, .refl _, .refl _, .refl _⟩

/-- Products of quaternions that agree agree. -/
theorem Agrees.mul (left : q.Agrees q') (right : r.Agrees r') : (q * r).Agrees (q' * r') where
  w := (((left.w.mul right.w).sub (left.x.mul right.x)).sub (left.y.mul right.y)).sub
    (left.z.mul right.z)
  x := (((left.w.mul right.x).add (left.x.mul right.w)).add (left.y.mul right.z)).sub
    (left.z.mul right.y)
  y := (((left.w.mul right.y).sub (left.x.mul right.z)).add (left.y.mul right.w)).add
    (left.z.mul right.x)
  z := (((left.w.mul right.z).add (left.x.mul right.y)).sub (left.y.mul right.x)).add
    (left.z.mul right.w)

private theorem conjugate_neg (q : Quaternion) : (-q).conjugate = -q.conjugate := rfl

/-! ## Opposite factors -/

/-- Reversing the signs of a factor reverses those of the product. -/
theorem neg_mul_agrees (q r : Quaternion) : (-q * r).Agrees (-(q * r)) := by
  have opposite (a b : Single) : (-a * b).Agrees (-(a * b)) := by rw [Binary.neg_mul]
  exact {
    w := (((opposite q.w r.w).sub_neg (opposite q.x r.x)).sub_neg (opposite q.y r.y)).sub_neg
      (opposite q.z r.z)
    x := (((opposite q.w r.x).add_neg (opposite q.x r.w)).add_neg (opposite q.y r.z)).sub_neg
      (opposite q.z r.y)
    y := (((opposite q.w r.y).sub_neg (opposite q.x r.z)).add_neg (opposite q.y r.w)).add_neg
      (opposite q.z r.x)
    z := (((opposite q.w r.z).add_neg (opposite q.x r.y)).sub_neg (opposite q.y r.x)).add_neg
      (opposite q.z r.w) }

/-- The opposites of two factors have the same product. -/
theorem neg_mul_neg (q r : Quaternion) : -q * -r = q * r := by
  simp only [mul_def, neg_def, Binary.neg_mul, Binary.mul_neg, Binary.neg_neg]

/-! ## Changes of frame -/

/-- A change of frame has the attitude as a factor on either side of the vector, so its sign is
lost. -/
theorem bodyToEarth_neg_agrees (v attitude : Quaternion) :
    (bodyToEarth v (-attitude)).Agrees (bodyToEarth v attitude) := by
  have outer := (neg_mul_agrees attitude v.vectorPart).mul (.refl (-attitude.conjugate))
  rw [neg_mul_neg] at outer
  exact outer

/-- Changes of frame do not depend on the sign of the attitude, whatever the components of vector
and attitude are, and the one to the body is that to the earth by the conjugate attitude. -/
theorem changesOfFrame_doubleCover (v attitude : Quaternion) :
    (bodyToEarth v (-attitude)).Agrees (bodyToEarth v attitude) ∧
      (earthToBody v (-attitude)).Agrees (earthToBody v attitude) ∧
      (earthToBody v attitude).Agrees (bodyToEarth v attitude.conjugate) := by
  refine ⟨bodyToEarth_neg_agrees v attitude, ?_, ?_⟩
  · rw [earthToBody_eq_bodyToEarth_conjugate, earthToBody_eq_bodyToEarth_conjugate, conjugate_neg]
    exact bodyToEarth_neg_agrees v attitude.conjugate
  · rw [earthToBody_eq_bodyToEarth_conjugate]

/-- Agreement is all: opposite attitudes may leave zeros of opposite signs. -/
example : bodyToEarth zeroVector (-identity) ≠ bodyToEarth zeroVector identity := by
  decide +kernel

end FlightMath.Quaternion
