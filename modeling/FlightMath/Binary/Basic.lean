import FlightMath.Binary.Format

/-! # Binary floating-point values

A value is NaN, an infinity or a signed magnitude on its format's grid. There is one NaN, and both
zeros are kept apart, so structural equality is equality of words with all NaNs identified.

Comparisons follow the extended line instead: `rank?` places every value but NaN, the two zeros
share a place, and a comparison with NaN fails. `Binary.round` is the only way by which an
operation makes a finite magnitude out of an exact quotient.
-/

namespace FlightMath

/-- A floating-point value of the format `F`. -/
inductive Binary (F : FloatFormat) where
  | nan
  | infinite (negative : Bool)
  | finite (negative : Bool) (units : Nat) (fits : F.Fits units)
deriving DecidableEq, Repr

/-- A 32-bit value. -/
abbrev Single := Binary FloatFormat.single

/-- A 64-bit value. -/
abbrev Double := Binary FloatFormat.double

/-- A magnitude with its sign. -/
def signed (negative : Bool) (units : Nat) : Int :=
  if negative then -(units : Int) else units

@[simp] theorem signed_zero (negative : Bool) : signed negative 0 = 0 := by
  cases negative <;> rfl

@[simp] theorem natAbs_signed (negative : Bool) (units : Nat) :
    (signed negative units).natAbs = units := by
  cases negative <;> simp [signed]

@[simp] theorem signed_not (negative : Bool) (units : Nat) :
    signed (!negative) units = -signed negative units := by
  cases negative <;> simp [signed]

namespace Binary

variable {F : FloatFormat}

/-- The signed zero. -/
def zero (negative : Bool) : Binary F :=
  .finite negative 0 F.fits_zero

instance : Inhabited (Binary F) :=
  ⟨zero false⟩

/-- The value nearest to `num / den` units, ties to even; at the limit or above it is infinite. -/
def round (negative : Bool) (num den : Nat) : Binary F :=
  if withinLimit : F.roundUnits num den < 2 ^ F.limitExponent then
    .finite negative (F.roundUnits num den) (F.fits_roundUnits withinLimit)
  else .infinite negative

/-- A magnitude on the grid is its own rounding. -/
theorem round_one {negative : Bool} {units : Nat} (fits : F.Fits units) :
    round negative units 1 = .finite negative units fits := by
  have exact := F.roundUnits_one fits
  simp only [round, exact, fits.1, ↓reduceDIte]

@[simp] theorem round_zero (negative : Bool) (den : Nat) :
    round (F := F) negative 0 den = zero negative := by
  have exact : F.roundUnits 0 den = 0 := by simp [FloatFormat.roundUnits, roundHalfEven]
  simp only [round, exact, Nat.two_pow_pos, ↓reduceDIte, zero]

/-! ## Kind and sign -/

/-- Whether the value is a signed magnitude. -/
def isFinite : Binary F → Bool
  | .finite .. => true
  | _ => false

/-- The value with its sign reversed; NaN has none. -/
protected def neg : Binary F → Binary F
  | .nan => .nan
  | .infinite negative => .infinite (!negative)
  | .finite negative units fits => .finite (!negative) units fits

instance : Neg (Binary F) :=
  ⟨Binary.neg⟩

/-- The value with its sign cleared; NaN has none. -/
protected def abs : Binary F → Binary F
  | .nan => .nan
  | .infinite _ => .infinite false
  | .finite _ units fits => .finite false units fits

@[simp] theorem neg_nan : -(nan : Binary F) = nan := rfl

@[simp] theorem neg_infinite (negative : Bool) :
    -(infinite negative : Binary F) = infinite (!negative) := rfl

@[simp] theorem neg_finite (negative : Bool) (units : Nat) (fits : F.Fits units) :
    -(finite negative units fits) = finite (!negative) units fits := rfl

@[simp] protected theorem neg_neg (x : Binary F) : -(-x) = x := by
  cases x <;> simp

@[simp] protected theorem abs_neg (x : Binary F) : (-x).abs = x.abs := by
  cases x <;> rfl

/-- Rounding does not look at the sign. -/
theorem neg_round (negative : Bool) (num den : Nat) :
    -(round negative num den : Binary F) = round (!negative) num den := by
  unfold round
  split <;> rfl

/-! ## Exact values and order -/

/-- The exact value of a finite number; NaN and the infinities read as zero. -/
def toRat : Binary F → Rat
  | .finite negative units _ => (signed negative units : Rat) / (2 ^ F.unitExponent : Nat)
  | _ => 0

/-- The place on the extended line, in units, with the infinities at the limit; NaN has none. -/
def rank? : Binary F → Option Int
  | .nan => none
  | .infinite negative => some (signed negative (2 ^ F.limitExponent))
  | .finite negative units _ => some (signed negative units)

@[simp] theorem rank?_eq_none_iff (x : Binary F) : x.rank? = none ↔ x = .nan := by
  cases x <;> simp [rank?]

theorem rank?_neg (x : Binary F) : (-x).rank? = x.rank?.map (- ·) := by
  cases x <;> simp [rank?]

/-- Compares two places; nothing holds of NaN. -/
def holds (relation : Int → Int → Bool) (x y : Binary F) : Bool :=
  match x.rank?, y.rank? with
  | some place, some other => relation place other
  | _, _ => false

private theorem holds_iff (relation : Int → Int → Bool) (x y : Binary F) :
    x.holds relation y = true ↔
      ∃ place other, x.rank? = some place ∧ y.rank? = some other ∧ relation place other = true := by
  unfold holds
  split
  · next place other hx hy => simp [hx, hy]
  · next unplaced =>
    constructor
    · intro absurd
      cases absurd
    · rintro ⟨place, other, hx, hy, _⟩
      exact (unplaced place other hx hy).elim

@[simp] theorem holds_nan_left (relation : Int → Int → Bool) (y : Binary F) :
    (nan : Binary F).holds relation y = false := rfl

@[simp] theorem holds_nan_right (relation : Int → Int → Bool) (x : Binary F) :
    x.holds relation nan = false := by
  cases x <;> rfl

instance : LT (Binary F) :=
  ⟨fun x y => x.holds (· < ·) y = true⟩

instance : LE (Binary F) :=
  ⟨fun x y => x.holds (· ≤ ·) y = true⟩

instance : DecidableLT (Binary F) := fun x y =>
  inferInstanceAs (Decidable (x.holds (· < ·) y = true))

instance : DecidableLE (Binary F) := fun x y =>
  inferInstanceAs (Decidable (x.holds (· ≤ ·) y = true))

/-- Equality of values: the zeros are equal, and NaN equals nothing. -/
def ValueEq (x y : Binary F) : Prop :=
  x.holds (· == ·) y = true

instance (x y : Binary F) : Decidable (x.ValueEq y) :=
  inferInstanceAs (Decidable (_ = true))

theorem lt_iff (x y : Binary F) :
    x < y ↔ ∃ place other, x.rank? = some place ∧ y.rank? = some other ∧ place < other := by
  refine (holds_iff _ x y).trans ?_
  simp only [decide_eq_true_eq]

theorem le_iff (x y : Binary F) :
    x ≤ y ↔ ∃ place other, x.rank? = some place ∧ y.rank? = some other ∧ place ≤ other := by
  refine (holds_iff _ x y).trans ?_
  simp only [decide_eq_true_eq]

theorem valueEq_iff (x y : Binary F) :
    x.ValueEq y ↔ ∃ place, x.rank? = some place ∧ y.rank? = some place := by
  refine (holds_iff _ x y).trans ?_
  constructor
  · rintro ⟨place, other, hx, hy, same⟩
    exact ⟨place, hx, beq_iff_eq.mp same ▸ hy⟩
  · rintro ⟨place, hx, hy⟩
    exact ⟨place, place, hx, hy, beq_self_eq_true place⟩

protected theorem lt_trans {x y z : Binary F} (first : x < y) (second : y < z) : x < z := by
  obtain ⟨place, middle, left, right, less⟩ := (lt_iff x y).mp first
  obtain ⟨middle', other, left', right', less'⟩ := (lt_iff y z).mp second
  obtain rfl := Option.some.inj (right.symm.trans left')
  exact (lt_iff x z).mpr ⟨place, other, left, right', Int.lt_trans less less'⟩

/-- Reversing both signs reverses the order. -/
protected theorem neg_lt_neg_iff (x y : Binary F) : -x < -y ↔ y < x := by
  rw [lt_iff, lt_iff, rank?_neg, rank?_neg]
  cases x.rank? <;> cases y.rank? <;> simp

theorem ValueEq.symm {x y : Binary F} (same : x.ValueEq y) : y.ValueEq x := by
  obtain ⟨place, left, right⟩ := (valueEq_iff x y).mp same
  exact (valueEq_iff y x).mpr ⟨place, right, left⟩

theorem ValueEq.trans {x y z : Binary F} (first : x.ValueEq y) (second : y.ValueEq z) :
    x.ValueEq z := by
  obtain ⟨place, left, middle⟩ := (valueEq_iff x y).mp first
  obtain ⟨other, middle', right⟩ := (valueEq_iff y z).mp second
  obtain rfl := Option.some.inj (middle.symm.trans middle')
  exact (valueEq_iff x z).mpr ⟨place, left, right⟩

end Binary

end FlightMath
