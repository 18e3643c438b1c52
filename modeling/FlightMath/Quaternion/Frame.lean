import FlightMath.Quaternion.Basic

/-! # Changes of frame

An attitude is a quaternion that takes body axes to earth axes. A vector changes frame by products
with the attitude and its conjugate; the vector's real part is ignored, while that of the result is
whatever rounding leaves.
-/

namespace FlightMath.Quaternion

/-- A vector in body axes, expressed in earth axes. -/
def bodyToEarth (v attitude : Quaternion) : Quaternion :=
  attitude * v.vectorPart * attitude.conjugate

/-- A vector in earth axes, expressed in body axes. -/
def earthToBody (v attitude : Quaternion) : Quaternion :=
  attitude.conjugate * v.vectorPart * attitude

/-- Going to the body is going to the earth by the conjugate attitude. -/
theorem earthToBody_eq_bodyToEarth_conjugate (v attitude : Quaternion) :
    earthToBody v attitude = bodyToEarth v attitude.conjugate := by
  rw [earthToBody, bodyToEarth, conjugate_conjugate]

end FlightMath.Quaternion
