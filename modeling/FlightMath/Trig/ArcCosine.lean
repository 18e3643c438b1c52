import FlightMath.Angle
import FlightMath.Binary.SquareRoot

/-! # Arc cosine

A square root times a cubic approximates the arc cosine between zero and one, and reflection gives
it below zero. A magnitude above one has no root and leads to NaN.
-/

namespace FlightMath

/-- The coefficients of the cubic factor. -/
structure ArcCosineCoefficients where
  constant : Single
  linear : Single
  quadratic : Single
  cubic : Single
deriving DecidableEq, Repr

/-- The coefficients in use. -/
def arcCosineCoefficients : ArcCosineCoefficients where
  constant := 1.5707288
  linear := -0.2121144
  quadratic := 0.0742610
  cubic := -0.0187293

/-- The approximation of the arc cosine between zero and one. -/
def ArcCosineCoefficients.eval (c : ArcCosineCoefficients) (magnitude : Single) : Single :=
  (1 - magnitude).sqrt * (c.constant + magnitude * (c.linear +
    magnitude * (c.quadratic + c.cubic * magnitude)))

/-- The approximate angle whose cosine is `x`. -/
def arcCosine (x : Single) : Single :=
  let angle := arcCosineCoefficients.eval x.abs
  if x < 0 then Angle.pi - angle else angle

end FlightMath
