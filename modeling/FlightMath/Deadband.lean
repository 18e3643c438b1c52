import FlightMath.Binary.Arithmetic
import FlightMath.Binary.Conversion

/-! # Deadbands

A deadband answers zero near zero and moves every other value toward zero by its width. The integer
and the 32-bit rule are the same; in the latter the comparisons fail on NaN, so that NaN takes the
last branch, and the shift rounds.
-/

namespace FlightMath.Deadband

/-- The integer deadband. -/
def apply (value width : Int) : Int :=
  if value.natAbs < width then 0
  else if 0 ≤ value then value - width
  else value + width

/-- The 32-bit deadband. -/
def applySingle (value width : Single) : Single :=
  if value.abs < width then 0
  else if 0 ≤ value then value - width
  else value + width

end FlightMath.Deadband
