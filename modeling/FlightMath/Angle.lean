import FlightMath.Binary.Arithmetic
import FlightMath.Binary.Conversion
import FlightMath.Integer.Width

/-! # Angles

Angles are 32-bit numbers of radians. A half turn is the rounded value of π. Halving and doubling it
are exact, so a quarter turn and a whole turn carry the same relative error as a half turn.
-/

namespace FlightMath

namespace Angle

/-- A half turn: the 32-bit value nearest to π. -/
def pi : Single := 3.141592653589793

/-- A quarter turn. -/
def halfPi : Single := 0.5 * pi

/-- A whole turn. -/
def twoPi : Single := 2 * pi

/-- A degree in radians, by one rounded division. -/
def radiansPerDegree : Single := pi / 180

/-- A whole number of degrees in radians. The number is truncated and wraps to 16 bits first. -/
def ofDegrees (degrees : Number) : Except TruncationError Single := do
  let whole ← degrees.truncate
  return Binary.ofInt (wrapShort whole) * radiansPerDegree

end Angle

end FlightMath
