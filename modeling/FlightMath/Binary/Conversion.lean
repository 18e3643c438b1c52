import FlightMath.Binary.Basic

/-! # Conversions

Integers, decimal fractions and values of another format are rounded once on the way in. On the way
out a value is truncated toward zero, which fails for NaN and for the infinities. `Number` is an
integer or a 64-bit value, and the operations that take either truncate it first.
-/

namespace FlightMath

/-- Why a floating-point value has no integer part. -/
inductive TruncationError where
  | notANumber
  | infinite
deriving DecidableEq, Repr

/-- The text that reports the error. -/
def TruncationError.message : TruncationError → String
  | .notANumber => "cannot convert float NaN to integer"
  | .infinite => "cannot convert float infinity to integer"

namespace Binary

variable {F G : FloatFormat}

/-- The value nearest to an integer. -/
def ofInt (value : Int) : Binary F :=
  round (decide (value < 0)) (value.natAbs * 2 ^ F.unitExponent) 1

/-- The value nearest to `digits * 10 ^ exponent`, or to `digits / 10 ^ exponent` if `fractional`.
-/
def ofDecimal (digits : Nat) (fractional : Bool) (exponent : Nat) : Binary F :=
  if fractional then round false (digits * 2 ^ F.unitExponent) (10 ^ exponent)
  else round false (digits * 10 ^ exponent * 2 ^ F.unitExponent) 1

instance (n : Nat) : OfNat (Binary F) n :=
  ⟨ofInt n⟩

instance : OfScientific (Binary F) :=
  ⟨ofDecimal⟩

theorem zero_eq : (0 : Binary F) = zero false := by
  show round _ (0 * _) 1 = _
  rw [Nat.zero_mul]
  exact round_zero _ _

/-- The value of the format `G` nearest to `x`. -/
def convert (x : Binary F) : Binary G :=
  match x with
  | .nan => .nan
  | .infinite negative => .infinite negative
  | .finite negative units _ =>
      round negative (units * 2 ^ G.unitExponent) (2 ^ F.unitExponent)

/-- The integer part, rounding toward zero. -/
def truncate : Binary F → Except TruncationError Int
  | .nan => .error .notANumber
  | .infinite _ => .error .infinite
  | .finite negative units _ => .ok (signed negative (units / 2 ^ F.unitExponent))

@[simp] theorem truncate_finite (negative : Bool) (units : Nat) (fits : F.Fits units) :
    (finite negative units fits).truncate =
      .ok (signed negative (units / 2 ^ F.unitExponent)) := rfl

/-- Rounding toward zero does not look at the sign. -/
theorem truncate_neg (x : Binary F) : (-x).truncate = x.truncate.map (- ·) := by
  cases x <;> simp [truncate, Except.map]

theorem isFinite_iff_truncate (x : Binary F) :
    x.isFinite = true ↔ ∃ whole, x.truncate = .ok whole := by
  cases x <;> simp [isFinite, truncate]

end Binary

/-- The nearest 32-bit value to a 64-bit one. -/
def Double.toSingle (x : Double) : Single :=
  x.convert

/-- A 32-bit value is also a 64-bit value. -/
def Single.toDouble (x : Single) : Double :=
  x.convert

/-- A count as a 32-bit value. It is rounded to 64 bits on the way. -/
def Single.ofCount (count : Nat) : Single :=
  Double.toSingle (Binary.ofInt count)

/-- An integer of any size or a 64-bit value. -/
inductive Number where
  | int (value : Int)
  | real (value : Double)
deriving DecidableEq, Repr, Inhabited

/-- The integer part, rounding toward zero. -/
def Number.truncate : Number → Except TruncationError Int
  | .int value => .ok value
  | .real value => value.truncate

@[simp] theorem Number.truncate_int (value : Int) : (Number.int value).truncate = .ok value := rfl

end FlightMath
