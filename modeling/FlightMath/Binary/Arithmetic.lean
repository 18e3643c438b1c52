import FlightMath.Binary.Basic

/-! # Correctly rounded arithmetic

Each operation forms the exact result of its finite operands as a quotient of natural numbers of
units and rounds it once. A product is never fused with the sum that uses it. The remaining cases
are those of infinities, NaN and the sign of zero.
-/

namespace FlightMath.Binary

variable {F : FloatFormat}

/-- An exact cancellation is a positive zero unless both summands are negative. -/
protected def add : Binary F → Binary F → Binary F
  | .nan, _ => .nan
  | _, .nan => .nan
  | .infinite negative, .infinite otherNegative =>
      if negative = otherNegative then .infinite negative else .nan
  | .infinite negative, .finite .. => .infinite negative
  | .finite .., .infinite negative => .infinite negative
  | .finite negative units _, .finite otherNegative otherUnits _ =>
      let total := signed negative units + signed otherNegative otherUnits
      if total = 0 then zero (negative && otherNegative)
      else round (decide (total < 0)) total.natAbs 1

/-- The sum with the negated value, so that a value less itself is a positive zero. -/
protected def sub (x y : Binary F) : Binary F :=
  x.add (-y)

/-- A product of an infinity and a zero is NaN. -/
protected def mul : Binary F → Binary F → Binary F
  | .nan, _ => .nan
  | _, .nan => .nan
  | .infinite negative, .infinite otherNegative => .infinite (negative ^^ otherNegative)
  | .infinite negative, .finite otherNegative units _ =>
      if units = 0 then .nan else .infinite (negative ^^ otherNegative)
  | .finite negative units _, .infinite otherNegative =>
      if units = 0 then .nan else .infinite (negative ^^ otherNegative)
  | .finite negative units _, .finite otherNegative otherUnits _ =>
      round (negative ^^ otherNegative) (units * otherUnits) (2 ^ F.unitExponent)

/-- Division by zero is infinite, except that a zero divided by a zero is NaN. -/
protected def div : Binary F → Binary F → Binary F
  | .nan, _ => .nan
  | _, .nan => .nan
  | .infinite _, .infinite _ => .nan
  | .infinite negative, .finite otherNegative _ _ => .infinite (negative ^^ otherNegative)
  | .finite negative _ _, .infinite otherNegative => zero (negative ^^ otherNegative)
  | .finite negative units _, .finite otherNegative otherUnits _ =>
      if otherUnits = 0 then
        if units = 0 then .nan else .infinite (negative ^^ otherNegative)
      else round (negative ^^ otherNegative) (units * 2 ^ F.unitExponent) otherUnits

instance : Add (Binary F) := ⟨Binary.add⟩
instance : Sub (Binary F) := ⟨Binary.sub⟩
instance : Mul (Binary F) := ⟨Binary.mul⟩
instance : Div (Binary F) := ⟨Binary.div⟩

theorem sub_eq_add_neg (x y : Binary F) : x - y = x + -y := rfl

@[simp] theorem nan_add (y : Binary F) : nan + y = nan := rfl

@[simp] theorem add_nan (x : Binary F) : x + nan = nan := by
  cases x <;> rfl

@[simp] theorem nan_mul (y : Binary F) : nan * y = nan := rfl

@[simp] theorem mul_nan (x : Binary F) : x * nan = nan := by
  cases x <;> rfl

@[simp] theorem nan_div (y : Binary F) : nan / y = nan := rfl

@[simp] theorem div_nan (x : Binary F) : x / nan = nan := by
  cases x <;> rfl

theorem add_finite (negative otherNegative : Bool) (units otherUnits : Nat)
    (fits : F.Fits units) (otherFits : F.Fits otherUnits) :
    finite negative units fits + finite otherNegative otherUnits otherFits =
      let total := signed negative units + signed otherNegative otherUnits
      if total = 0 then zero (negative && otherNegative)
      else round (decide (total < 0)) total.natAbs 1 := rfl

theorem mul_finite (negative otherNegative : Bool) (units otherUnits : Nat)
    (fits : F.Fits units) (otherFits : F.Fits otherUnits) :
    finite negative units fits * finite otherNegative otherUnits otherFits =
      round (negative ^^ otherNegative) (units * otherUnits) (2 ^ F.unitExponent) := rfl

theorem div_finite (negative otherNegative : Bool) (units otherUnits : Nat)
    (fits : F.Fits units) (otherFits : F.Fits otherUnits) (nonzero : otherUnits ≠ 0) :
    finite negative units fits / finite otherNegative otherUnits otherFits =
      round (negative ^^ otherNegative) (units * 2 ^ F.unitExponent) otherUnits := by
  show (if _ then _ else _) = _
  rw [if_neg nonzero]

protected theorem add_comm (x y : Binary F) : x + y = y + x := by
  show x.add y = y.add x
  cases x <;> cases y <;> simp only [Binary.add]
  case infinite.infinite negative otherNegative =>
    cases negative <;> cases otherNegative <;> rfl
  case finite.finite => simp only [Int.add_comm, Bool.and_comm]

protected theorem mul_comm (x y : Binary F) : x * y = y * x := by
  show x.mul y = y.mul x
  cases x <;> cases y <;> simp only [Binary.mul, Bool.xor_comm, Nat.mul_comm]

/-! ## Signs of products -/

/-- Reversing the sign of a factor reverses that of the product, of a zero and of an infinity as of
any other. -/
protected theorem neg_mul (x y : Binary F) : -x * y = -(x * y) := by
  cases x <;> cases y
  case finite.finite => simp only [neg_finite, mul_finite, neg_round, Bool.not_xor]
  case infinite.infinite negative otherNegative =>
    exact congrArg infinite (Bool.not_xor negative otherNegative)
  case infinite.finite negative otherNegative units _ =>
    show (if units = 0 then nan else infinite _) = -(if units = 0 then nan else infinite _)
    split
    · rfl
    · rw [neg_infinite, Bool.not_xor]
  case finite.infinite negative units _ otherNegative =>
    show (if units = 0 then nan else infinite _) = -(if units = 0 then nan else infinite _)
    split
    · rfl
    · rw [neg_infinite, Bool.not_xor]
  all_goals rfl

protected theorem mul_neg (x y : Binary F) : x * -y = -(x * y) := by
  rw [Binary.mul_comm, Binary.neg_mul, Binary.mul_comm]

end FlightMath.Binary
