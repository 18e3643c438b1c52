import FlightMath.Angle
import FlightMath.Trig.Mode

/-! # Sine and cosine

An angle that is not finite, or whose whole number of radians exceeds `sineLimit` either way, is
rejected and answered with zero. Any other angle is brought to a half turn either side of zero by
taking off or adding whole turns, folded onto a quarter turn by reflection, and put into the mode's
polynomial. The cosine is the sine of the angle a quarter turn on, so both share one rejection rule.

The count of turns is bounded by the whole radians of the angle: a turn is longer than a radian, so
the loops end because the angle has come into range and never because the bound has run out.
-/

namespace FlightMath

/-- Why an angle has no sine. -/
inductive SineRejection where
  | notFinite
  | outOfRange
deriving DecidableEq, Repr

/-- The greatest whole number of radians, either way, that is accepted. -/
def sineLimit : Int := 32

/-- The whole radians of an angle, rounded toward zero, if the angle is accepted. -/
def wholeRadians (angle : Single) : Except SineRejection Int :=
  match angle.truncate with
  | .error _ => .error .notFinite
  | .ok whole => if whole < -sineLimit ∨ sineLimit < whole then .error .outOfRange else .ok whole

/-- The reason to reject an angle, if there is one. -/
def sineRejection? (angle : Single) : Option SineRejection :=
  match wholeRadians angle with
  | .error reason => some reason
  | .ok _ => none

/-- Takes off whole turns, at most `turns`, while the angle is above a half turn. -/
def unwindAbove : (turns : Nat) → Single → Single
  | 0, angle => angle
  | turns + 1, angle =>
      if Angle.pi < angle then unwindAbove turns (angle - Angle.twoPi) else angle

/-- Adds whole turns, at most `turns`, while the angle is below minus a half turn. -/
def unwindBelow : (turns : Nat) → Single → Single
  | 0, angle => angle
  | turns + 1, angle =>
      if angle < -Angle.pi then unwindBelow turns (angle + Angle.twoPi) else angle

/-- The same direction within a half turn either side of zero. -/
def principal (turns : Nat) (angle : Single) : Single :=
  unwindBelow turns (unwindAbove turns angle)

/-- The angle within a quarter turn either side of zero that has the same sine. -/
def fold (angle : Single) : Single :=
  if Angle.halfPi < angle then Angle.halfPi - (angle - Angle.halfPi)
  else if angle < -Angle.halfPi then -Angle.halfPi - (Angle.halfPi + angle)
  else angle

/-- The odd polynomial of the ninth degree with these coefficients. -/
def SineCoefficients.eval (coefficients : SineCoefficients) (x : Single) : Single :=
  let square := x * x
  x + x * square * (coefficients.cubic + square * (coefficients.quintic +
    square * (coefficients.septic + square * coefficients.nonic)))

/-- The approximate sine; zero for a rejected angle. -/
def sine (mode : ApproxMode) (angle : Single) : Single :=
  match wholeRadians angle with
  | .error _ => 0
  | .ok whole => mode.sine.eval (fold (principal whole.natAbs angle))

/-- The angle whose sine is the cosine of the given one. -/
def quarterTurnOn (angle : Single) : Single :=
  angle + Angle.halfPi

/-- The approximate cosine; zero if the angle a quarter turn on is rejected. -/
def cosine (mode : ApproxMode) (angle : Single) : Single :=
  sine mode (quarterTurnOn angle)

theorem wholeRadians_eq_ok_iff (angle : Single) (whole : Int) :
    wholeRadians angle = .ok whole ↔
      angle.truncate = .ok whole ∧ -sineLimit ≤ whole ∧ whole ≤ sineLimit := by
  unfold wholeRadians
  split
  · next failed => simp [failed]
  · next found truncated =>
    split
    · next outside =>
      simp only [truncated, reduceCtorEq, Except.ok.injEq, false_iff]
      rintro ⟨rfl, lower, upper⟩
      omega
    · next inside =>
      simp only [truncated, Except.ok.injEq]
      omega

theorem sineRejection?_eq_none_iff (angle : Single) :
    sineRejection? angle = none ↔ ∃ whole, wholeRadians angle = .ok whole := by
  unfold sineRejection?
  split <;> simp [*]

/-- A rejected angle is answered with zero in either mode. -/
theorem sine_of_rejected (mode : ApproxMode) {angle : Single} {reason : SineRejection}
    (rejected : wholeRadians angle = .error reason) : sine mode angle = 0 := by
  rw [sine, rejected]

end FlightMath
