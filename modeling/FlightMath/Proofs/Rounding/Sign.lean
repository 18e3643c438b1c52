import FlightMath.Binary.SquareRoot
import FlightMath.Proofs.Rounding.Values

/-! # Results that are not negative

A value that is at least zero is the positive infinity or stands for such a number; it is not NaN.
Sums, quotients and roots of such values are at least zero again, also where they overflow, and so
is every rounding of such a number.
-/

namespace FlightMath.Binary

variable {F : FloatFormat} {x y : Binary F} {a b q : ℚ}

private theorem signed_nonneg_iff {negative : Bool} {units : ℕ} :
    0 ≤ signed negative units ↔ negative = false ∨ units = 0 := by
  cases negative with
  | false => simp [signed]
  | true =>
    rw [signed, if_pos rfl]
    simp

theorem HasValue.zero_le_iff (value : x.HasValue q) : 0 ≤ x ↔ 0 ≤ q :=
  hasValue_zero.le_iff value

theorem zero_le_infinite : 0 ≤ (infinite false : Binary F) := by
  rw [zero_eq]
  exact (le_iff _ _).mpr ⟨0, (2 ^ F.limitExponent : ℕ), rfl, rfl, Int.natCast_nonneg _⟩

theorem zero_le_iff : 0 ≤ x ↔ x = infinite false ∨ ∃ q, x.HasValue q ∧ 0 ≤ q := by
  constructor
  · intro nonneg
    cases x with
    | nan =>
      obtain ⟨place, other, left, right, ordered⟩ := (le_iff _ _).mp nonneg
      cases right
    | infinite negative =>
      rw [zero_eq] at nonneg
      obtain ⟨place, other, left, right, ordered⟩ := (le_iff _ _).mp nonneg
      obtain rfl := Option.some.inj left
      obtain rfl := Option.some.inj right
      rcases signed_nonneg_iff.mp ordered with rfl | limit
      · exact .inl rfl
      · exact absurd limit (Nat.two_pow_pos _).ne'
    | finite negative units fits =>
      have value := hasValue_finite negative units fits
      exact .inr ⟨_, value, value.zero_le_iff.mp nonneg⟩
  · rintro (rfl | ⟨q, value, nonneg⟩)
    · exact zero_le_infinite
    · exact value.zero_le_iff.mpr nonneg

/-- A finite value that is not negative has no sign, unless it is a zero. -/
theorem zero_le_finite_iff {negative : Bool} {units : ℕ} {fits : F.Fits units} :
    0 ≤ (finite negative units fits) ↔ negative = false ∨ units = 0 := by
  rw [(hasValue_finite negative units fits).zero_le_iff, le_div_iff₀ F.scale_pos, zero_mul,
    Int.cast_nonneg_iff, signed_nonneg_iff]

theorem HasValue.exists_eq_of_pos (value : x.HasValue q) (positive : 0 < q) :
    ∃ units fits, units ≠ 0 ∧ x = finite false units fits := by
  obtain ⟨negative, units, fits, rfl, rfl⟩ := hasValue_iff.mp value
  have nonzero : units ≠ 0 := by
    rintro rfl
    rw [signed_zero, Int.cast_zero, zero_div] at positive
    exact lt_irrefl 0 positive
  obtain rfl := (zero_le_finite_iff.mp (value.zero_le_iff.mpr positive.le)).resolve_right nonzero
  exact ⟨units, fits, nonzero, rfl⟩

/-- What stands for zero is a zero of either sign. -/
theorem HasValue.exists_eq_zero (value : x.HasValue 0) : ∃ negative, x = zero negative := by
  obtain ⟨negative, units, fits, rfl, exact⟩ := hasValue_iff.mp value
  obtain rfl : units = 0 := by
    have magnitude := abs_signed negative units
    rw [eq_comm, div_eq_zero_iff, or_iff_left F.scale_pos.ne'] at exact
    rw [exact, abs_zero] at magnitude
    exact_mod_cast magnitude.symm
  exact ⟨negative, rfl⟩

private theorem zero_le_round (num den : ℕ) : 0 ≤ (round false num den : Binary F) := by
  unfold round
  split
  · exact zero_le_finite_iff.mpr (.inl rfl)
  · exact zero_le_infinite

/-- A number that is not negative is rounded to such a value, or to the positive infinity. -/
theorem Rounds.zero_le (rounds : x.Rounds q) (nonneg : 0 ≤ q) : 0 ≤ x := by
  obtain ⟨negative, num, den, positive, exact, rfl⟩ := rounds
  have denominator : (0 : ℚ) < den := by exact_mod_cast positive
  have numerator : 0 ≤ signed negative num := by
    have scaled := mul_nonneg nonneg F.scale_pos.le
    rw [exact, le_div_iff₀ denominator, zero_mul] at scaled
    exact_mod_cast scaled
  rcases signed_nonneg_iff.mp numerator with rfl | rfl
  · exact zero_le_round num den
  · rw [round_zero]
    exact zero_le_finite_iff.mpr (.inr rfl)

theorem zero_le_add (left : 0 ≤ x) (right : 0 ≤ y) : 0 ≤ x + y := by
  rcases zero_le_iff.mp left with rfl | ⟨a, leftValue, leftNonneg⟩ <;>
    rcases zero_le_iff.mp right with rfl | ⟨b, rightValue, rightNonneg⟩
  · exact zero_le_infinite
  · obtain ⟨negative, units, fits, rfl, -⟩ := hasValue_iff.mp rightValue
    exact zero_le_infinite
  · obtain ⟨negative, units, fits, rfl, -⟩ := hasValue_iff.mp leftValue
    exact zero_le_infinite
  · exact (leftValue.rounds_add rightValue).zero_le (add_nonneg leftNonneg rightNonneg)

theorem zero_le_div (nonneg : 0 ≤ x) (value : y.HasValue b) (positive : 0 < b) : 0 ≤ x / y := by
  rcases zero_le_iff.mp nonneg with rfl | ⟨a, dividend, nonneg'⟩
  · obtain ⟨units, fits, -, rfl⟩ := value.exists_eq_of_pos positive
    exact zero_le_infinite
  · exact (dividend.rounds_div value positive.ne').zero_le (div_nonneg nonneg' positive.le)

theorem zero_le_sqrt (nonneg : 0 ≤ x) : 0 ≤ x.sqrt := by
  rcases zero_le_iff.mp nonneg with rfl | ⟨q, value, -⟩
  · exact zero_le_infinite
  · obtain ⟨negative, units, fits, rfl, rfl⟩ := hasValue_iff.mp value
    rw [sqrt]
    rcases zero_le_finite_iff.mp nonneg with rfl | rfl
    · split
      · exact nonneg
      · exact zero_le_round _ _
    · rw [if_pos rfl]
      exact nonneg

/-- A square is at least zero, also where it overflows. -/
theorem zero_le_mul_self (number : x ≠ nan) : 0 ≤ x * x := by
  cases x with
  | nan => exact absurd rfl number
  | infinite negative =>
    cases negative
    · exact zero_le_infinite
    · exact zero_le_infinite
  | finite negative units fits =>
    rw [mul_finite, Bool.xor_self]
    exact zero_le_round _ _

/-! ## From zero -/

private theorem zero_add_finite (units : ℕ) (fits : F.Fits units) :
    0 + finite false units fits = finite false units fits := by
  rw [zero_eq, zero, add_finite, signed_zero, Int.zero_add, signed, if_neg Bool.false_ne_true]
  dsimp only
  split
  · next nothing =>
    obtain rfl : units = 0 := by exact_mod_cast nothing
    rfl
  · rw [decide_eq_false (Int.natCast_nonneg units).not_gt, Int.natAbs_natCast, round_one fits]

/-- The positive zero leaves a square as it is, since no square is the negative zero. -/
theorem zero_add_mul_self (x : Binary F) : 0 + x * x = x * x := by
  rw [zero_eq]
  cases x with
  | nan => rfl
  | infinite negative => cases negative <;> rfl
  | finite negative units fits =>
    rw [mul_finite, Bool.xor_self, ← zero_eq, round]
    split
    · exact zero_add_finite _ _
    · rw [zero_eq]
      rfl

/-- A zero of either sign added to the positive zero leaves it. -/
theorem zero_add_of_hasValue_zero (value : x.HasValue 0) : 0 + x = 0 := by
  obtain ⟨negative, rfl⟩ := value.exists_eq_zero
  rw [zero_eq]
  cases negative <;> rfl

theorem zero_div_of_pos (value : y.HasValue b) (positive : 0 < b) : 0 / y = 0 := by
  obtain ⟨units, fits, nonzero, rfl⟩ := value.exists_eq_of_pos positive
  rw [zero_eq, zero, div_finite _ _ _ _ _ _ nonzero, Nat.zero_mul, round_zero]
  rfl

end FlightMath.Binary
