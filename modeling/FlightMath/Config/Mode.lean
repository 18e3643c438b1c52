import FlightMath.Config.Text

/-! # Selecting a mode

Only a mode itself selects the approximations; its word does not.
-/

namespace FlightMath

/-- The value is not a mode. -/
structure UnknownMode where
  value : Value

/-- The text that reports the error. -/
def UnknownMode.message (error : UnknownMode) : String :=
  "Unknown approximation mode: " ++ error.value.display

/-- The mode that a value is. -/
def selectMode : Value → Except UnknownMode ApproxMode
  | .mode mode => .ok mode
  | value => .error ⟨value⟩

theorem selectMode_eq_ok_iff {value : Value} {mode : ApproxMode} :
    selectMode value = .ok mode ↔ value = .mode mode := by
  cases value <;> simp [selectMode]

end FlightMath
