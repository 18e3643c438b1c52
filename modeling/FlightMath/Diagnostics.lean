import FlightMath.Config.Settings
import FlightMath.Quaternion.Basic
import FlightMath.Rotation

/-! # Diagnostics

An operation that answers a doubtful input with a fallback value says so in a record, and so does
the choice of a mode. Records are data here: next to each operation that has any stands the list
of its records, which depends on the operation's input alone.
-/

namespace FlightMath

/-- How much attention a record asks for. -/
inductive Severity where
  | debug
  | info
deriving DecidableEq, Repr

/-- The name of a severity. -/
def Severity.name : Severity → String
  | .debug => "DEBUG"
  | .info => "INFO"

/-- The part of the library that makes a record. -/
inductive Channel where
  | trigonometry
  | rotation
  | quaternion
  | settings
deriving DecidableEq, Repr

/-- An argument of a record's message. -/
inductive Argument where
  | text (value : String)
  | number (value : Single)
deriving DecidableEq, Repr

/-- Something worth recording. -/
inductive Event where
  | sineRejected (reason : SineRejection) (angle : Single)
  | vectorWithoutLength
  | quaternionWithoutModulus
  | modeSelected (mode : ApproxMode)
deriving DecidableEq, Repr

namespace Event

/-- The channel on which an event is recorded. -/
def channel : Event → Channel
  | .sineRejected .. => .trigonometry
  | .vectorWithoutLength => .rotation
  | .quaternionWithoutModulus => .quaternion
  | .modeSelected _ => .settings

/-- Only the choice of a mode is more than a detail. -/
def severity : Event → Severity
  | .modeSelected _ => .info
  | _ => .debug

/-- The message, with a placeholder for each argument. -/
def message : Event → String
  | .sineRejected .notFinite _ => "Rejecting non-finite sine input %s"
  | .sineRejected .outOfRange _ => "Rejecting out-of-range sine input %s"
  | .vectorWithoutLength => "Skipping normalization of a zero-length vector"
  | .quaternionWithoutModulus => "Skipping normalization of a zero quaternion"
  | .modeSelected _ => "Using %s trigonometric approximations"

/-- The values for the placeholders of the message. -/
def arguments : Event → List Argument
  | .sineRejected _ angle => [.number angle]
  | .modeSelected mode => [.text mode.word]
  | _ => []

end Event

/-- The records of a sine. -/
def sineEvents (angle : Single) : List Event :=
  match sineRejection? angle with
  | some reason => [.sineRejected reason angle]
  | none => []

/-- The records of a cosine, which name the angle a quarter turn on. -/
def cosineEvents (angle : Single) : List Event :=
  sineEvents (quarterTurnOn angle)

/-- The records of a rotation: for roll, pitch and yaw in turn, the cosine's before the sine's. -/
def EulerAngles.events (angles : EulerAngles) : List Event :=
  [angles.roll, angles.pitch, angles.yaw].flatMap fun angle =>
    cosineEvents angle ++ sineEvents angle

/-- The records of a normalization. -/
def Vector3.normalizeEvents (v : Vector3) : List Event :=
  if v.normalize?.isSome then [] else [.vectorWithoutLength]

/-- The records of a normalization. -/
def Quaternion.normalizeEvents (q : Quaternion) : List Event :=
  if q.normalize?.isSome then [] else [.quaternionWithoutModulus]

/-- The records of choosing the approximations that the settings name. -/
def Settings.modeEvents (settings : Settings) : List Event :=
  [.modeSelected settings.mode]

/-- A sine has no record exactly when its angle is accepted. -/
theorem sineEvents_eq_nil_iff (angle : Single) :
    sineEvents angle = [] ↔ ∃ whole, wholeRadians angle = .ok whole := by
  rw [← sineRejection?_eq_none_iff]
  unfold sineEvents
  split <;> simp [*]

end FlightMath
