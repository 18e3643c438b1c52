import FlightMath.Trig.Sine
import FlightMath.Vector3

/-! # Rotations from Euler angles

The matrix of a rotation is built from the approximate sines and cosines of roll, pitch and yaw,
each entry in a fixed order of operations. Vectors are rows and multiply the matrix from the left.
-/

namespace FlightMath

/-- Roll, pitch and yaw in radians. -/
structure EulerAngles where
  roll : Single
  pitch : Single
  yaw : Single
deriving DecidableEq, Repr, Inhabited

/-- A matrix of three rows. -/
@[ext] structure Matrix3 where
  first : Vector3
  second : Vector3
  third : Vector3
deriving DecidableEq, Repr, Inhabited

/-- The approximate cosine and sine of one angle. -/
structure Turn where
  cosine : Single
  sine : Single
deriving DecidableEq, Repr

/-- The turn by an angle. -/
def Turn.ofAngle (mode : ApproxMode) (angle : Single) : Turn where
  cosine := FlightMath.cosine mode angle
  sine := FlightMath.sine mode angle

namespace Matrix3

/-- The matrix of a roll, a pitch and a yaw. -/
def ofTurns (roll pitch yaw : Turn) : Matrix3 :=
  let yawCosRollCos := yaw.cosine * roll.cosine
  let yawSinRollCos := yaw.sine * roll.cosine
  let rollSinYawCos := roll.sine * yaw.cosine
  let rollSinYawSin := roll.sine * yaw.sine
  { first :=
      ⟨yaw.cosine * pitch.cosine,
        (-pitch.cosine) * yaw.sine,
        pitch.sine⟩
    second :=
      ⟨yawSinRollCos + rollSinYawCos * pitch.sine,
        yawCosRollCos - rollSinYawSin * pitch.sine,
        (-roll.sine) * pitch.cosine⟩
    third :=
      ⟨rollSinYawSin - yawCosRollCos * pitch.sine,
        rollSinYawCos + yawSinRollCos * pitch.sine,
        pitch.cosine * roll.cosine⟩ }

/-- The rotation matrix of the angles. -/
def ofAngles (mode : ApproxMode) (angles : EulerAngles) : Matrix3 :=
  ofTurns (.ofAngle mode angles.roll) (.ofAngle mode angles.pitch) (.ofAngle mode angles.yaw)

/-- The rows from the first to the third. -/
def rows (m : Matrix3) : List Vector3 :=
  [m.first, m.second, m.third]

end Matrix3

namespace Vector3

/-- The row vector times the matrix. -/
def transform (v : Vector3) (m : Matrix3) : Vector3 where
  x := v.x * m.first.x + v.y * m.second.x + v.z * m.third.x
  y := v.x * m.first.y + v.y * m.second.y + v.z * m.third.y
  z := v.x * m.first.z + v.y * m.second.z + v.z * m.third.z

/-- The vector rotated by the angles. -/
def rotate (v : Vector3) (mode : ApproxMode) (angles : EulerAngles) : Vector3 :=
  v.transform (.ofAngles mode angles)

end Vector3

end FlightMath
