import FlightMath.Binary.Arithmetic
import FlightMath.Binary.Conversion
import FlightMath.Binary.SquareRoot
import FlightMath.Nested

/-! # Quaternions

A quaternion has four 32-bit components, the real part first. Products and sums of products are
evaluated from left to right with a rounding at each step, so multiplication is neither associative
nor exactly norm-preserving. Unit modulus is expected of rotations and enforced nowhere.
-/

namespace FlightMath

/-- A quaternion of four 32-bit components. -/
@[ext] structure Quaternion where
  w : Single
  x : Single
  y : Single
  z : Single
deriving DecidableEq, Repr, Inhabited

namespace Quaternion

/-- The quaternion of a flat array of four numbers, each rounded to 32 bits. -/
def ofNested? (array : Nested) : Except ShapeError Quaternion :=
  match array.numbers .notQuaternion with
  | .ok [w, x, y, z] => .ok ⟨w.toSingle, x.toSingle, y.toSingle, z.toSingle⟩
  | .ok _ => .error .notQuaternion
  | .error cause => .error cause

/-- The identity rotation. -/
def identity : Quaternion := ⟨1, 0, 0, 0⟩

/-- The zero vector. -/
def zeroVector : Quaternion := ⟨0, 0, 0, 0⟩

/-- The quaternion of a vector, whose real part is zero. -/
def ofVector (x y z : Single) : Quaternion :=
  ⟨0, x, y, z⟩

/-- The components in order, the real part first. -/
def toList (q : Quaternion) : List Single :=
  [q.w, q.x, q.y, q.z]

theorem w_mem_toList (q : Quaternion) : q.w ∈ q.toList := List.mem_cons_self

theorem x_mem_toList (q : Quaternion) : q.x ∈ q.toList :=
  List.mem_cons_of_mem _ List.mem_cons_self

theorem y_mem_toList (q : Quaternion) : q.y ∈ q.toList :=
  List.mem_cons_of_mem _ (List.mem_cons_of_mem _ List.mem_cons_self)

theorem z_mem_toList (q : Quaternion) : q.z ∈ q.toList :=
  List.mem_cons_of_mem _ (List.mem_cons_of_mem _ (List.mem_cons_of_mem _ List.mem_cons_self))

/-- The Hamilton product. -/
protected def mul (q r : Quaternion) : Quaternion where
  w := q.w * r.w - q.x * r.x - q.y * r.y - q.z * r.z
  x := q.w * r.x + q.x * r.w + q.y * r.z - q.z * r.y
  y := q.w * r.y - q.x * r.z + q.y * r.w + q.z * r.x
  z := q.w * r.z + q.x * r.y - q.y * r.x + q.z * r.w

/-- The sum of the components. -/
protected def add (q r : Quaternion) : Quaternion :=
  ⟨q.w + r.w, q.x + r.x, q.y + r.y, q.z + r.z⟩

instance : Mul Quaternion := ⟨Quaternion.mul⟩
instance : Add Quaternion := ⟨Quaternion.add⟩

/-- The quaternion with its vector part negated. -/
def conjugate (q : Quaternion) : Quaternion :=
  ⟨q.w, -q.x, -q.y, -q.z⟩

/-- All four components negated. -/
protected def neg (q : Quaternion) : Quaternion :=
  ⟨-q.w, -q.x, -q.y, -q.z⟩

instance : Neg Quaternion := ⟨Quaternion.neg⟩

/-- The vector part alone. -/
def vectorPart (q : Quaternion) : Quaternion :=
  ofVector q.x q.y q.z

/-- The four-component dot product. -/
def dot (q r : Quaternion) : Single :=
  q.w * r.w + q.x * r.x + q.y * r.y + q.z * r.z

/-- The squared modulus. -/
def norm (q : Quaternion) : Single :=
  q.dot q

/-- The root of the norm; the norm may round to zero or overflow first. -/
def modulus (q : Quaternion) : Single :=
  q.norm.sqrt

/-- Holds unless the modulus is zero; a modulus that is NaN counts as a modulus. -/
def CanNormalize (q : Quaternion) : Prop :=
  ¬ q.modulus.ValueEq 0

instance (q : Quaternion) : Decidable q.CanNormalize :=
  inferInstanceAs (Decidable (¬ _))

/-- Each component over a common divisor. -/
def divide (q : Quaternion) (divisor : Single) : Quaternion :=
  ⟨q.w / divisor, q.x / divisor, q.y / divisor, q.z / divisor⟩

/-- The quaternion scaled to unit modulus, or nothing if the modulus is zero. -/
def normalize? (q : Quaternion) : Option Quaternion :=
  if q.modulus.ValueEq 0 then none else some (q.divide q.modulus)

/-- The normalized quaternion; one whose modulus is zero is left as it is. -/
def normalize (q : Quaternion) : Quaternion :=
  q.normalize?.getD q

theorem mul_def (q r : Quaternion) : q * r =
    ⟨q.w * r.w - q.x * r.x - q.y * r.y - q.z * r.z,
      q.w * r.x + q.x * r.w + q.y * r.z - q.z * r.y,
      q.w * r.y - q.x * r.z + q.y * r.w + q.z * r.x,
      q.w * r.z + q.x * r.y - q.y * r.x + q.z * r.w⟩ := rfl

theorem neg_def (q : Quaternion) : -q = ⟨-q.w, -q.x, -q.y, -q.z⟩ := rfl

@[simp] theorem conjugate_conjugate (q : Quaternion) : q.conjugate.conjugate = q := by
  simp [conjugate]

theorem normalize?_eq_none_iff (q : Quaternion) : q.normalize? = none ↔ ¬ q.CanNormalize := by
  simp [normalize?, CanNormalize]

theorem normalize?_of_canNormalize {q : Quaternion} (modulus : q.CanNormalize) :
    q.normalize? = some (q.divide q.modulus) :=
  if_neg modulus

/-! ## Products of components -/

/-- The product of each pair of components. -/
structure Products where
  ww : Single
  wx : Single
  wy : Single
  wz : Single
  xx : Single
  xy : Single
  xz : Single
  yy : Single
  yz : Single
  zz : Single
deriving DecidableEq, Repr

/-- The pairwise products, each rounded once. -/
def products (q : Quaternion) : Products where
  ww := q.w * q.w
  wx := q.w * q.x
  wy := q.w * q.y
  wz := q.w * q.z
  xx := q.x * q.x
  xy := q.x * q.y
  xz := q.x * q.z
  yy := q.y * q.y
  yz := q.y * q.z
  zz := q.z * q.z

/-! ## Approximate equality -/

/-- The tolerance relative to the second quaternion's components. -/
def relativeTolerance : Single := 1e-5

/-- The absolute tolerance when none is given. -/
def standardTolerance : Double := 1e-6

/-- Equal, or apart by no more than the tolerances allow around a finite second value. -/
def Near (tolerance x y : Single) : Prop :=
  x.ValueEq y ∨ y.isFinite ∧ (x - y).abs ≤ tolerance + relativeTolerance * y.abs

instance (tolerance x y : Single) : Decidable (Near tolerance x y) :=
  inferInstanceAs (Decidable (_ ∨ _ ∧ _))

/-- Each component of `q` is near that of `r`. -/
def AlmostEqual (tolerance : Double) (q r : Quaternion) : Prop :=
  Near tolerance.toSingle q.w r.w ∧ Near tolerance.toSingle q.x r.x ∧
    Near tolerance.toSingle q.y r.y ∧ Near tolerance.toSingle q.z r.z

instance (tolerance : Double) (q r : Quaternion) : Decidable (AlmostEqual tolerance q r) :=
  inferInstanceAs (Decidable (_ ∧ _ ∧ _ ∧ _))

end Quaternion

end FlightMath
