import FlightMath.Angle

/-! # The direction of a point

The smaller coordinate over the larger one lies between zero and one, and a rational function
approximates its arc tangent there. The result is then reflected into the octant and the quadrant
of the point. Comparisons with NaN fail, so the ratio takes NaN from the ordinate and loses one
from the abscissa unless the ordinate is infinite.
-/

namespace FlightMath

/-- The coefficients of the rational function: five above the line and two below it. -/
structure ArcTangentCoefficients where
  first : Single
  second : Single
  third : Single
  fourth : Single
  fifth : Single
  sixth : Single
  seventh : Single
deriving DecidableEq, Repr

/-- The coefficients in use. -/
def arcTangentCoefficients : ArcTangentCoefficients where
  first := 3.14551665884836e-07
  second := 0.99997356613987
  third := 0.14744007058297684
  fourth := 0.3099814292351353
  fifth := 0.05030176425872175
  sixth := 0.1471039133652469
  seventh := 0.6444640676891548

namespace ArcTangentCoefficients

/-- The numerator with its sign reversed. -/
def above (c : ArcTangentCoefficients) (ratio : Single) : Single :=
  (((c.fifth * ratio - c.fourth) * ratio - c.third) * ratio - c.second) * ratio - c.first

/-- The denominator. -/
def below (c : ArcTangentCoefficients) (ratio : Single) : Single :=
  (c.seventh * ratio + c.sixth) * ratio + 1

/-- The rational approximation of the arc tangent between zero and one. -/
def eval (c : ArcTangentCoefficients) (ratio : Single) : Single :=
  -c.above ratio / c.below ratio

end ArcTangentCoefficients

/-- The smaller of two magnitudes over the larger; zero when the larger is. -/
def magnitudeRatio (width height : Single) : Single :=
  let larger := if height < width then width else height
  if larger.ValueEq 0 then 0 else (if width < height then width else height) / larger

/-- The approximate angle from the positive abscissa to the point `(x, y)`. -/
def arcTangent2 (y x : Single) : Single :=
  let width := x.abs
  let height := y.abs
  let octant := arcTangentCoefficients.eval (magnitudeRatio width height)
  let quadrant := if width < height then Angle.halfPi - octant else octant
  let half := if x < 0 then Angle.pi - quadrant else quadrant
  if y < 0 then -half else half

end FlightMath
