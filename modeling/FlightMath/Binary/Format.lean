import FlightMath.Power

/-! # Binary floating-point formats

A format is described on the grid of its least positive value, the *unit*. Every finite magnitude is
a whole number of units, so the format is a set of natural numbers: below the limit, and divisible
by the spacing of their binade. Subnormals are the numbers whose spacing is one unit and need no
case of their own.

`roundUnits` takes an exact quotient of natural numbers to the nearest grid point, ties going to an
even significand. Its main statement, `shift_dvd_roundUnits`, is that the result lies on the grid.
Overflow is not decided here: the result may reach the limit.
-/

namespace FlightMath

/-- A binary floating-point format, measured in units of its least positive value. -/
structure FloatFormat where
  /-- The number of significant bits. -/
  precision : Nat
  /-- One unit is `2 ^ (-unitExponent)`. -/
  unitExponent : Nat
  /-- Finite magnitudes are below `2 ^ limitExponent` units. -/
  limitExponent : Nat
  precision_pos : 0 < precision := by decide
  precision_le_limit : precision ≤ limitExponent := by decide
deriving DecidableEq, Repr

namespace FloatFormat

/-- The format with 24 significant bits and 32-bit words. -/
def single : FloatFormat where
  precision := 24
  unitExponent := 149
  limitExponent := 277

/-- The format with 53 significant bits and 64-bit words. -/
def double : FloatFormat where
  precision := 53
  unitExponent := 1074
  limitExponent := 2098

variable (F : FloatFormat)

/-- The low bits that a magnitude of `units` cannot use, because its significand is full. -/
def shift (units : Nat) : Nat :=
  units.log2 + 1 - F.precision

/-- A finite magnitude: within the limit, and with no bit below its significand. -/
def Fits (units : Nat) : Prop :=
  units < 2 ^ F.limitExponent ∧ 2 ^ F.shift units ∣ units

instance (units : Nat) : Decidable (F.Fits units) :=
  inferInstanceAs (Decidable (_ ∧ _))

theorem fits_zero : F.Fits 0 :=
  ⟨Nat.two_pow_pos _, Nat.dvd_zero _⟩

/-- A magnitude below `2 ^ (precision + low)` leaves at most `low` bits unused. -/
theorem shift_le_of_lt {units low : Nat} (bounded : units < 2 ^ (F.precision + low)) :
    F.shift units ≤ low := by
  unfold shift
  by_cases zero : units = 0
  · subst zero
    have := F.precision_pos
    simp only [Nat.log2_zero]
    omega
  · have := (Nat.log2_lt zero).mpr bounded
    omega

end FloatFormat

/-- The integer nearest to `num / den`; a half goes to the even neighbour. -/
def roundHalfEven (num den : Nat) : Nat :=
  let quotient := num / den
  let rest := 2 * (num % den)
  if rest < den then quotient
  else if den < rest then quotient + 1
  else quotient + quotient % 2

private theorem roundHalfEven_le_div_add_one (num den : Nat) :
    roundHalfEven num den ≤ num / den + 1 := by
  unfold roundHalfEven
  dsimp only
  split
  · exact Nat.le_succ _
  · split <;> omega

/-- The rounded quotient is at most half a step above or below the exact one. -/
theorem roundHalfEven_nearest (num : Nat) {den : Nat} (positive : 0 < den) :
    2 * (roundHalfEven num den * den) ≤ 2 * num + den ∧
      2 * num ≤ 2 * (roundHalfEven num den * den) + den := by
  have division := Nat.div_add_mod num den
  have remainder := Nat.mod_lt num positive
  unfold roundHalfEven
  dsimp only
  generalize num / den = quotient at division
  generalize num % den = rest at division remainder
  have step : (quotient + 1) * den = den * quotient + den := by
    rw [Nat.add_mul, Nat.one_mul, Nat.mul_comm]
  have whole : quotient * den = den * quotient := Nat.mul_comm _ _
  split
  · omega
  · split
    · omega
    · rcases Nat.mod_two_eq_zero_or_one quotient with even | odd
      · rw [even, Nat.add_zero]
        omega
      · rw [odd]
        omega

/-- An exact quotient is not moved. -/
theorem roundHalfEven_mul_left {den : Nat} (positive : 0 < den) (quotient : Nat) :
    roundHalfEven (quotient * den) den = quotient := by
  simp [roundHalfEven, Nat.mul_div_cancel _ positive, positive]

namespace FloatFormat

variable (F : FloatFormat)

/-- The grid point nearest to `num / den` units, ties going to an even significand. -/
def roundUnits (num den : Nat) : Nat :=
  let low := F.shift (num / den)
  roundHalfEven num (den * 2 ^ low) * 2 ^ low

/-- A rounded significand has at most `precision` bits, or is the next power of two. -/
theorem roundHalfEven_shift_le (num den : Nat) :
    roundHalfEven num (den * 2 ^ F.shift (num / den)) ≤ 2 ^ F.precision := by
  have significand : num / (den * 2 ^ F.shift (num / den)) < 2 ^ F.precision := by
    rw [← Nat.div_div_eq_div_mul, Nat.div_lt_iff_lt_mul (Nat.two_pow_pos _), ← Nat.pow_add]
    exact Nat.lt_of_lt_of_le Nat.lt_log2_self
      (Nat.pow_le_pow_right Nat.two_pos (by unfold shift; omega))
  exact Nat.le_trans (roundHalfEven_le_div_add_one _ _) significand

/-- Rounding lands on the grid. -/
theorem shift_dvd_roundUnits (num den : Nat) :
    2 ^ F.shift (F.roundUnits num den) ∣ F.roundUnits num den := by
  have bounded := F.roundHalfEven_shift_le num den
  unfold roundUnits
  dsimp only
  generalize F.shift (num / den) = low at bounded
  generalize roundHalfEven num (den * 2 ^ low) = significand at bounded
  by_cases full : significand = 2 ^ F.precision
  · subst full
    rw [← Nat.pow_add, shift, Nat.log2_two_pow]
    have := F.precision_pos
    exact Nat.pow_dvd_pow 2 (by omega)
  · have strict : significand * 2 ^ low < 2 ^ (F.precision + low) := by
      rw [Nat.pow_add]
      exact Nat.mul_lt_mul_of_pos_right (Nat.lt_of_le_of_ne bounded full) (Nat.two_pow_pos _)
    exact Nat.dvd_trans (Nat.pow_dvd_pow 2 (F.shift_le_of_lt strict)) (Nat.dvd_mul_left _ _)

theorem fits_roundUnits {num den : Nat}
    (withinLimit : F.roundUnits num den < 2 ^ F.limitExponent) : F.Fits (F.roundUnits num den) :=
  ⟨withinLimit, F.shift_dvd_roundUnits num den⟩

/-- A magnitude that already lies on the grid is not moved. -/
theorem roundUnits_one {units : Nat} (fits : F.Fits units) : F.roundUnits units 1 = units := by
  unfold roundUnits
  dsimp only
  rw [Nat.div_one, Nat.one_mul]
  obtain ⟨significand, eq⟩ := fits.2
  generalize F.shift units = low at eq
  rw [eq, Nat.mul_comm (2 ^ low), roundHalfEven_mul_left (Nat.two_pow_pos _)]

end FloatFormat

end FlightMath
