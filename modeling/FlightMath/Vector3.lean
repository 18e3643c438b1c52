import FlightMath.Binary.Arithmetic
import FlightMath.Binary.SquareRoot
import FlightMath.Nested

/-! # Vectors

A vector has three 32-bit components. Normalization divides each by the rounded length and refuses a
vector whose length rounds to zero, which leaves the caller's own vector in place.
-/

namespace FlightMath

/-- A vector of three 32-bit components. -/
@[ext] structure Vector3 where
  x : Single
  y : Single
  z : Single
deriving DecidableEq, Repr, Inhabited

namespace Vector3

/-- The vector of a flat array of three numbers, each rounded to 32 bits. -/
def ofNested? (array : Nested) : Except ShapeError Vector3 :=
  match array.numbers .notVector with
  | .ok [x, y, z] => .ok ⟨x.toSingle, y.toSingle, z.toSingle⟩
  | .ok _ => .error .notVector
  | .error cause => .error cause

/-- The components in order. -/
def toList (v : Vector3) : List Single :=
  [v.x, v.y, v.z]

/-- The Euclidean length; the sum of squares may round to zero or overflow before its root is
taken. -/
def length (v : Vector3) : Single :=
  (v.x * v.x + v.y * v.y + v.z * v.z).sqrt

/-- Holds unless the length is zero; a length that is NaN counts as a length. -/
def CanNormalize (v : Vector3) : Prop :=
  ¬ v.length.ValueEq 0

instance (v : Vector3) : Decidable v.CanNormalize :=
  inferInstanceAs (Decidable (¬ _))

/-- Each component over a common divisor. -/
def divide (v : Vector3) (divisor : Single) : Vector3 :=
  ⟨v.x / divisor, v.y / divisor, v.z / divisor⟩

/-- The vector scaled to unit length, or nothing for a vector without length. -/
def normalize? (v : Vector3) : Option Vector3 :=
  if v.length.ValueEq 0 then none else some (v.divide v.length)

/-- The normalized vector, or the fallback for a vector without length. -/
def normalizeOr (v fallback : Vector3) : Vector3 :=
  v.normalize?.getD fallback

/-- The normalized vector; a vector without length is left as it is. -/
def normalize (v : Vector3) : Vector3 :=
  v.normalizeOr v

theorem normalize?_eq_none_iff (v : Vector3) : v.normalize? = none ↔ ¬ v.CanNormalize := by
  simp [normalize?, CanNormalize]

theorem normalize?_of_canNormalize {v : Vector3} (length : v.CanNormalize) :
    v.normalize? = some (v.divide v.length) :=
  if_neg length

end Vector3

end FlightMath
