import FlightMath.Binary.Conversion
import FlightMath.Proofs.Rounding.Units

/-! # Widening is exact

Every 32-bit value is a 64-bit value, so widening and rounding back is the identity.
-/

namespace FlightMath

namespace FloatFormat

/-- The unit of the single format is this power of two in units of the double format. -/
def widening : ℕ :=
  double.unitExponent - single.unitExponent

private theorem two_pow_double_unitExponent :
    2 ^ double.unitExponent = 2 ^ widening * 2 ^ single.unitExponent := by
  have exponents : double.unitExponent = widening + single.unitExponent := by decide
  rw [exponents, Nat.pow_add]

/-- A magnitude of the single format has at most 24 significant bits. -/
private theorem exists_significand {units : ℕ} (fits : single.Fits units) :
    ∃ significand < 2 ^ 24, units = significand * 2 ^ single.shift units := by
  obtain ⟨significand, exact⟩ := fits.2
  refine ⟨significand, ?_, by rw [Nat.mul_comm, ← exact]⟩
  have bits : units < 2 ^ single.shift units * 2 ^ 24 := by
    rw [← Nat.pow_add]
    refine Nat.lt_of_lt_of_le Nat.lt_log2_self (Nat.pow_le_pow_right Nat.two_pos ?_)
    have precision : single.precision = 24 := rfl
    unfold shift
    omega
  exact Nat.lt_of_mul_lt_mul_left (exact.symm.trans_lt bits)

/-- A magnitude of the single format is one of the double format, in its finer units. -/
theorem fits_double {units : ℕ} (fits : single.Fits units) :
    double.Fits (units * 2 ^ widening) := by
  constructor
  · refine Nat.lt_of_lt_of_le (Nat.mul_lt_mul_of_pos_right fits.1 (Nat.two_pow_pos _)) ?_
    rw [← Nat.pow_add]
    exact Nat.pow_le_pow_right Nat.two_pos (by decide)
  · obtain ⟨significand, small, exact⟩ := exists_significand fits
    rw [exact, Nat.mul_assoc, ← Nat.pow_add]
    exact double.onGrid_mul_two_pow _
      (small.le.trans (Nat.pow_le_pow_right Nat.two_pos (by decide)))

end FloatFormat

namespace Binary

variable {F G : FloatFormat}

theorem convert_finite (negative : Bool) (units : ℕ) (fits : F.Fits units) :
    (finite negative units fits).convert =
      (round negative (units * 2 ^ G.unitExponent) (2 ^ F.unitExponent) : Binary G) := rfl

/-- A factor that the numerator shares with the denominator does not change the rounding. -/
theorem round_mul_self (negative : Bool) (num : ℕ) {factor : ℕ} (positive : 0 < factor) :
    (round negative (num * factor) factor : Binary F) = round negative num 1 := by
  have cancelled := F.roundUnits_mul_right num 1 positive
  rw [Nat.one_mul] at cancelled
  simp only [round, cancelled]

end Binary

private theorem Single.toDouble_finite (negative : Bool) (units : ℕ)
    (fits : FloatFormat.single.Fits units) :
    Single.toDouble (.finite negative units fits) =
      .finite negative (units * 2 ^ FloatFormat.widening) (FloatFormat.fits_double fits) := by
  rw [toDouble, Binary.convert_finite, FloatFormat.two_pow_double_unitExponent, ← Nat.mul_assoc,
    Binary.round_mul_self _ _ (Nat.two_pow_pos _), Binary.round_one]

theorem Single.toSingle_toDouble (x : Single) : x.toDouble.toSingle = x := by
  cases x with
  | nan => rfl
  | infinite negative => rfl
  | finite negative units fits =>
    rw [toDouble_finite, Double.toSingle, Binary.convert_finite, Nat.mul_assoc,
      ← FloatFormat.two_pow_double_unitExponent, Binary.round_mul_self _ _ (Nat.two_pow_pos _),
      Binary.round_one]

end FlightMath
