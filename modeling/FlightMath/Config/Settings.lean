import FlightMath.Config.Params
import FlightMath.Median.Window
import FlightMath.Trig.Sine

/-! # Using checked settings

Settings come from parameters that pass their check, and offer the approximations of their mode and
the median of windows of their size. A failed check is reported with the text that the check itself
gives.
-/

namespace FlightMath

/-- The parameters failed their check. -/
structure SettingsError where
  cause : ParamsError

/-- The text that reports the error. -/
def SettingsError.message (error : SettingsError) : String :=
  error.cause.message

namespace Settings

/-- The settings that the parameters describe. -/
def ofParams (params : Params) : Except SettingsError Settings :=
  params.check.mapError SettingsError.mk

/-- The median of a window of the chosen size. -/
def median (settings : Settings) (samples : List Double) : Except MedianError Single :=
  singleMedianOf? settings.window samples

/-- The sine in the chosen mode. -/
def sine (settings : Settings) (angle : Single) : Single :=
  FlightMath.sine settings.mode angle

/-- The cosine in the chosen mode. -/
def cosine (settings : Settings) (angle : Single) : Single :=
  FlightMath.cosine settings.mode angle

@[simp] theorem ofParams_toParams (settings : Settings) :
    ofParams settings.toParams = .ok settings := by
  rw [ofParams, Params.check_toParams]
  rfl

end Settings

end FlightMath
