import FlightMath.Binary.Arithmetic
import FlightMath.Binary.Conversion
import FlightMath.Proofs.Rounding.Nearest

/-! # Exact values of computed results

`HasValue x q` says that `x` is finite and stands for the rational number `q`, and `Rounds x q` that
`x` is what `q` is rounded to, be it infinite. Each operation on values rounds the exact result, so
it has the nearest value as long as that does not overflow, and a comparison of values is the
comparison of what they stand for. The sign of a zero is not seen.
-/

namespace FlightMath

namespace FloatFormat

variable (F : FloatFormat)

/-- The greatest finite value. -/
def largest : ℚ :=
  ((2 ^ F.precision - 1) * 2 ^ (F.limitExponent - F.precision) : ℕ) / F.scale

private theorem largest_units_lt :
    (2 ^ F.precision - 1) * 2 ^ (F.limitExponent - F.precision) < 2 ^ F.limitExponent := by
  calc (2 ^ F.precision - 1) * 2 ^ (F.limitExponent - F.precision)
      < 2 ^ F.precision * 2 ^ (F.limitExponent - F.precision) :=
        Nat.mul_lt_mul_of_pos_right (Nat.sub_one_lt (Nat.two_pow_pos _).ne') (Nat.two_pow_pos _)
    _ = 2 ^ F.limitExponent := by
        rw [← Nat.pow_add, Nat.add_sub_cancel' F.precision_le_limit]

/-- No finite magnitude has more units. In the last binade it is a multiple of the greatest
spacing. -/
private theorem le_largest_units {units : ℕ} (fits : F.Fits units) :
    units ≤ (2 ^ F.precision - 1) * 2 ^ (F.limitExponent - F.precision) := by
  have positive := F.precision_pos
  have limit := F.precision_le_limit
  have exponent : F.precision - 1 + (F.limitExponent - F.precision) = F.limitExponent - 1 := by
    omega
  rcases Nat.lt_or_ge units (2 ^ (F.limitExponent - 1)) with below | above
  · rw [← exponent, Nat.pow_add] at below
    refine below.le.trans (Nat.mul_le_mul_right _ (Nat.le_sub_one_of_lt ?_))
    exact Nat.pow_lt_pow_right Nat.one_lt_two (by omega)
  · rw [← exponent] at above
    obtain ⟨significand, rfl⟩ := OnGrid.dvd fits.2 above
    have below := fits.1
    rw [← Nat.sub_add_cancel limit, Nat.pow_add, Nat.add_sub_cancel] at below
    rw [Nat.mul_comm]
    exact Nat.mul_le_mul_right _ (Nat.le_sub_one_of_lt (Nat.lt_of_mul_lt_mul_left below))

theorem grid_largest : F.Grid F.largest :=
  ⟨_, F.onGrid_mul_two_pow (F.limitExponent - F.precision) (Nat.sub_le _ 1),
    abs_of_nonneg (div_nonneg (Nat.cast_nonneg _) F.scale_pos.le)⟩

theorem single_largest : single.largest = (2 ^ 24 - 1) * 2 ^ 104 := by
  rw [largest, div_eq_iff (scale_pos _).ne']
  norm_num [single, scale]

theorem grid_one : single.Grid 1 :=
  (show IsMultiple 0 1 from ⟨1, by norm_num⟩).grid (by decide) (by norm_num [single])

end FloatFormat

namespace Binary

variable {F : FloatFormat} {x y : Binary F} {a b q : ℚ}

/-- The value is finite and stands for `q`. -/
def HasValue (x : Binary F) (q : ℚ) : Prop :=
  x.isFinite = true ∧ x.toRat = q

instance (x : Binary F) (q : ℚ) : Decidable (x.HasValue q) :=
  inferInstanceAs (Decidable (_ ∧ _))

theorem hasValue_toRat (finite : x.isFinite = true) : x.HasValue x.toRat :=
  ⟨finite, rfl⟩

theorem hasValue_finite (negative : Bool) (units : ℕ) (fits : F.Fits units) :
    (finite negative units fits).HasValue (signed negative units / F.scale) :=
  ⟨rfl, rfl⟩

theorem hasValue_iff : x.HasValue q ↔ ∃ negative units fits,
    x = finite negative units fits ∧ q = signed negative units / F.scale := by
  constructor
  · rintro ⟨isFinite, rfl⟩
    cases x with
    | nan => cases isFinite
    | infinite negative => cases isFinite
    | finite negative units fits => exact ⟨negative, units, fits, rfl, rfl⟩
  · rintro ⟨negative, units, fits, rfl, rfl⟩
    exact hasValue_finite negative units fits

/-- A value other than NaN is an infinity or stands for a number. -/
theorem infinite_or_hasValue (number : x ≠ nan) :
    (∃ negative, x = infinite negative) ∨ ∃ q, x.HasValue q := by
  cases x with
  | nan => exact absurd rfl number
  | infinite negative => exact .inl ⟨negative, rfl⟩
  | finite negative units fits => exact .inr ⟨_, hasValue_finite negative units fits⟩

theorem hasValue_zero : (0 : Binary F).HasValue 0 := by
  rw [zero_eq]
  exact hasValue_iff.mpr ⟨false, 0, F.fits_zero, rfl, by simp⟩

/-- A magnitude with its sign has that magnitude. -/
theorem abs_signed (negative : Bool) (units : ℕ) : |(signed negative units : ℚ)| = units := by
  cases negative <;> simp [signed]

/-- A number is its magnitude with its sign put back. -/
theorem signed_natAbs (number : ℤ) : signed (decide (number < 0)) number.natAbs = number := by
  rcases lt_or_ge number 0 with negative | nonneg
  · rw [decide_eq_true negative, signed, if_pos rfl]
    omega
  · rw [decide_eq_false (not_lt.mpr nonneg), signed, if_neg Bool.false_ne_true]
    omega

theorem HasValue.grid (value : x.HasValue q) : F.Grid q := by
  obtain ⟨negative, units, fits, rfl, rfl⟩ := hasValue_iff.mp value
  exact ⟨units, fits.2, by rw [abs_div, abs_signed, abs_of_pos F.scale_pos]⟩

/-- A finite value is a whole number of units. -/
theorem HasValue.isMultiple (value : x.HasValue q) :
    FloatFormat.IsMultiple (-(F.unitExponent : ℤ)) q := by
  obtain ⟨negative, units, fits, rfl, rfl⟩ := hasValue_iff.mp value
  refine ⟨signed negative units, ?_⟩
  rw [div_eq_mul_inv, zpow_neg, zpow_natCast, FloatFormat.scale]
  push_cast
  rfl

theorem HasValue.abs_le_largest (value : x.HasValue q) : |q| ≤ F.largest := by
  obtain ⟨negative, units, fits, rfl, rfl⟩ := hasValue_iff.mp value
  rw [abs_div, abs_signed, abs_of_pos F.scale_pos, FloatFormat.largest,
    div_le_div_iff_of_pos_right F.scale_pos]
  exact_mod_cast F.le_largest_units fits

/-! ## Exact results and their rounding -/

/-- The value is the rounding of an exact number, infinite if that overflows. -/
def Rounds (x : Binary F) (q : ℚ) : Prop :=
  ∃ negative num den, 0 < den ∧ q * F.scale = signed negative num / (den : ℕ) ∧
    x = round negative num den

theorem rounds_round {negative : Bool} {num den : ℕ} (positive : 0 < den)
    (exact : q * F.scale = signed negative num / den) :
    (round negative num den : Binary F).Rounds q :=
  ⟨negative, num, den, positive, exact, rfl⟩

/-- A finite value is the rounding of what it stands for. -/
theorem HasValue.rounds (value : x.HasValue q) : x.Rounds q := by
  obtain ⟨negative, units, fits, rfl, rfl⟩ := hasValue_iff.mp value
  rw [← round_one fits]
  refine rounds_round Nat.one_pos ?_
  rw [div_mul_cancel₀ _ F.scale_pos.ne', Nat.cast_one, div_one]

/-- A nonzero numerator has the sign of the number. -/
private theorem signed_eq_abs_or {negative : Bool} {num den : ℕ}
    (exact : q * F.scale = signed negative num / den) :
    q = |q| ∧ negative = false ∨ q = -|q| ∧ negative = true := by
  have scale := F.scale_pos
  cases negative with
  | false =>
    refine .inl ⟨(abs_of_nonneg (nonneg_of_mul_nonneg_left ?_ scale)).symm, rfl⟩
    rw [exact, signed, if_neg Bool.false_ne_true, Int.cast_natCast]
    positivity
  | true =>
    have nonneg : 0 ≤ -q := by
      refine nonneg_of_mul_nonneg_left ?_ scale
      rw [neg_mul, exact, signed, if_pos rfl, Int.cast_neg, neg_div, neg_neg]
      positivity
    exact .inr ⟨by rw [abs_of_nonpos (neg_nonneg.mp nonneg), neg_neg], rfl⟩

private theorem abs_nearest_eq_roundUnits {negative : Bool} {num den : ℕ} (positive : 0 < den)
    (exact : q * F.scale = signed negative num / den) :
    |F.nearest q| = F.roundUnits num den / F.scale := by
  have magnitude : |q| * F.scale = num / den := by
    rw [← abs_of_pos F.scale_pos, ← abs_mul, exact, abs_div, abs_signed, Nat.abs_cast]
  rw [← F.nearest_abs, F.nearest_of_nonneg (abs_nonneg q), magnitude,
    F.nearestUnits_div num positive]

/-- The nearest value has the rounded number of units and the sign of the quotient. -/
theorem signed_roundUnits_div_scale {negative : Bool} {num den : ℕ} (positive : 0 < den)
    (exact : q * F.scale = signed negative num / den) :
    (signed negative (F.roundUnits num den) : ℚ) / F.scale = F.nearest q := by
  have magnitude := abs_nearest_eq_roundUnits positive exact
  rcases signed_eq_abs_or exact with ⟨same, rfl⟩ | ⟨opposite, rfl⟩
  · rw [same, F.nearest_abs, magnitude]
    rfl
  · rw [opposite, F.nearest_neg, F.nearest_abs, magnitude]
    simp [signed, neg_div]

/-- A finite rounding is the nearest value. -/
theorem Rounds.hasValue_of_isFinite (rounds : x.Rounds q) (finite : x.isFinite = true) :
    x.HasValue (F.nearest q) := by
  obtain ⟨negative, num, den, positive, exact, rfl⟩ := rounds
  refine ⟨finite, ?_⟩
  unfold round at finite ⊢
  split at finite
  · next withinLimit =>
    rw [dif_pos withinLimit]
    exact signed_roundUnits_div_scale positive exact
  · cases finite

/-- A rounding is finite if the nearest value is not past the greatest. -/
theorem Rounds.isFinite (rounds : x.Rounds q) (bounded : |F.nearest q| ≤ F.largest) :
    x.isFinite = true := by
  obtain ⟨negative, num, den, positive, exact, rfl⟩ := rounds
  have withinLimit : F.roundUnits num den < 2 ^ F.limitExponent := by
    rw [abs_nearest_eq_roundUnits positive exact, FloatFormat.largest,
      div_le_div_iff_of_pos_right F.scale_pos] at bounded
    exact lt_of_le_of_lt (by exact_mod_cast bounded) F.largest_units_lt
  rw [round, dif_pos withinLimit]
  rfl

theorem Rounds.hasValue_nearest (rounds : x.Rounds q) (bounded : |F.nearest q| ≤ F.largest) :
    x.HasValue (F.nearest q) :=
  rounds.hasValue_of_isFinite (rounds.isFinite bounded)

/-- The rounding is the nearest value, unless it overflows. -/
theorem Rounds.hasValue (rounds : x.Rounds q) (bounded : |q| ≤ F.largest) :
    x.HasValue (F.nearest q) :=
  rounds.hasValue_nearest (FloatFormat.abs_nearest_le F.grid_largest bounded)

/-! ## Operations -/

theorem HasValue.neg (value : x.HasValue q) : (-x).HasValue (-q) := by
  obtain ⟨negative, units, fits, rfl, rfl⟩ := hasValue_iff.mp value
  refine hasValue_iff.mpr ⟨!negative, units, fits, rfl, ?_⟩
  rw [signed_not, Int.cast_neg, neg_div]

theorem HasValue.abs (value : x.HasValue q) : x.abs.HasValue |q| := by
  obtain ⟨negative, units, fits, rfl, rfl⟩ := hasValue_iff.mp value
  refine hasValue_iff.mpr ⟨false, units, fits, rfl, ?_⟩
  rw [abs_div, abs_signed, abs_of_pos F.scale_pos]
  rfl

theorem HasValue.rounds_add (left : x.HasValue a) (right : y.HasValue b) :
    (x + y).Rounds (a + b) := by
  obtain ⟨negative, units, fits, rfl, rfl⟩ := hasValue_iff.mp left
  obtain ⟨otherNegative, otherUnits, otherFits, rfl, rfl⟩ := hasValue_iff.mp right
  rw [add_finite, ← add_div, ← Int.cast_add]
  dsimp only
  generalize signed negative units + signed otherNegative otherUnits = total
  split
  · next cancels =>
    rw [← round_zero _ 1]
    refine rounds_round Nat.one_pos ?_
    rw [cancels, signed_zero, Int.cast_zero, zero_div, zero_mul, zero_div]
  · refine rounds_round Nat.one_pos ?_
    rw [div_mul_cancel₀ _ F.scale_pos.ne', Nat.cast_one, div_one, signed_natAbs]

theorem HasValue.rounds_sub (left : x.HasValue a) (right : y.HasValue b) :
    (x - y).Rounds (a - b) := by
  have opposite : a - b = a + -b := by ring
  rw [opposite]
  exact left.rounds_add right.neg

private theorem signed_mul (negative otherNegative : Bool) (units otherUnits : ℕ) :
    signed (negative ^^ otherNegative) (units * otherUnits) =
      signed negative units * signed otherNegative otherUnits := by
  cases negative <;> cases otherNegative <;> simp [signed]

private theorem signed_mul_natCast (negative : Bool) (units factor : ℕ) :
    signed negative (units * factor) = signed negative units * factor := by
  have product := signed_mul negative false units factor
  rwa [Bool.xor_false] at product

theorem HasValue.rounds_mul (left : x.HasValue a) (right : y.HasValue b) :
    (x * y).Rounds (a * b) := by
  obtain ⟨negative, units, fits, rfl, rfl⟩ := hasValue_iff.mp left
  obtain ⟨otherNegative, otherUnits, otherFits, rfl, rfl⟩ := hasValue_iff.mp right
  rw [mul_finite]
  refine rounds_round (Nat.two_pow_pos _) ?_
  have scale := F.scale_pos.ne'
  rw [signed_mul, Int.cast_mul]
  show _ = _ / (F.scale : ℚ)
  field_simp

theorem HasValue.rounds_div (left : x.HasValue a) (right : y.HasValue b) (nonzero : b ≠ 0) :
    (x / y).Rounds (a / b) := by
  obtain ⟨negative, units, fits, rfl, rfl⟩ := hasValue_iff.mp left
  obtain ⟨otherNegative, otherUnits, otherFits, rfl, rfl⟩ := hasValue_iff.mp right
  have divisor : otherUnits ≠ 0 := by
    rintro rfl
    exact nonzero (by rw [signed_zero, Int.cast_zero, zero_div])
  rw [div_finite _ _ _ _ _ _ divisor]
  refine rounds_round (Nat.pos_of_ne_zero divisor) ?_
  have scale := F.scale_pos.ne'
  rw [div_div_div_cancel_right₀ scale, signed_mul_natCast, Int.cast_mul]
  show _ / _ * _ = _ * (F.scale : ℚ) / _
  cases otherNegative <;> cases negative <;> simp [signed] <;> field_simp

theorem rounds_ofInt (value : ℤ) : (ofInt value : Binary F).Rounds value := by
  refine rounds_round Nat.one_pos ?_
  rw [Nat.cast_one, div_one, signed_mul_natCast, signed_natAbs, Int.cast_mul]
  rfl

theorem HasValue.rounds_convert {G : FloatFormat} (value : x.HasValue q) :
    (x.convert : Binary G).Rounds q := by
  obtain ⟨negative, units, fits, rfl, rfl⟩ := hasValue_iff.mp value
  refine rounds_round (Nat.two_pow_pos _) ?_
  rw [signed_mul_natCast, Int.cast_mul, div_mul_eq_mul_div]
  rfl

theorem HasValue.add (left : x.HasValue a) (right : y.HasValue b)
    (bounded : |a + b| ≤ F.largest) : (x + y).HasValue (F.nearest (a + b)) :=
  (left.rounds_add right).hasValue bounded

theorem HasValue.sub (left : x.HasValue a) (right : y.HasValue b)
    (bounded : |a - b| ≤ F.largest) : (x - y).HasValue (F.nearest (a - b)) :=
  (left.rounds_sub right).hasValue bounded

theorem HasValue.mul (left : x.HasValue a) (right : y.HasValue b)
    (bounded : |a * b| ≤ F.largest) : (x * y).HasValue (F.nearest (a * b)) :=
  (left.rounds_mul right).hasValue bounded

/-! ## Single precision -/

/-- Numbers up to `2 ^ 127` are rounded to finite values. -/
theorem single_le_largest {bound : ℚ} (small : bound ≤ 2 ^ (127 : ℤ)) (bounded : |q| ≤ bound) :
    |q| ≤ FloatFormat.single.largest := by
  rw [FloatFormat.single_largest]
  refine bounded.trans (small.trans ?_)
  norm_num

/-- The rounding error of a number below a power of two. -/
theorem abs_single_nearest_sub_le {top : ℤ} (low : -125 ≤ top) (bounded : |q| ≤ 2 ^ top) :
    |FloatFormat.single.nearest q - q| ≤ 2 ^ (top - 25) := by
  refine (FloatFormat.abs_nearest_sub_le_two_zpow (F := FloatFormat.single) bounded low).trans_eq ?_
  have exponent : top - 25 = top - FloatFormat.single.precision - 1 := by
    have precision : (FloatFormat.single.precision : ℤ) = 24 := rfl
    omega
  rw [exponent, zpow_sub_one₀ two_ne_zero, div_eq_mul_inv]

/-- Integers of at most twenty-four bits are exact. -/
theorem hasValue_ofInt (value : ℤ) (small : |value| ≤ 2 ^ 24) :
    (ofInt value : Single).HasValue value := by
  have magnitude : |(value : ℚ)| ≤ 2 ^ 24 := by exact_mod_cast small
  have multiple : FloatFormat.IsMultiple 0 (value : ℚ) := ⟨value, by norm_num⟩
  have grid := multiple.grid (F := FloatFormat.single) (by decide)
    (magnitude.trans (by norm_num [FloatFormat.single]))
  rw [← FloatFormat.nearest_of_grid grid]
  refine (rounds_ofInt value).hasValue (magnitude.trans ?_)
  rw [FloatFormat.single_largest]
  norm_num

/-- A numeral of at most twenty-four bits stands for itself. -/
theorem hasValue_ofNat (n : ℕ) [n.AtLeastTwo] (small : n ≤ 2 ^ 24) :
    (OfNat.ofNat n : Single).HasValue (OfNat.ofNat n) := by
  have value := hasValue_ofInt n (by rw [Nat.abs_cast]; exact_mod_cast small)
  exact_mod_cast value

theorem hasValue_one : (1 : Single).HasValue 1 := by
  have value := hasValue_ofInt 1 (by norm_num)
  exact_mod_cast value

/-! ## Comparisons -/

theorem HasValue.lt_iff (left : x.HasValue a) (right : y.HasValue b) : x < y ↔ a < b := by
  obtain ⟨negative, units, fits, rfl, rfl⟩ := hasValue_iff.mp left
  obtain ⟨otherNegative, otherUnits, otherFits, rfl, rfl⟩ := hasValue_iff.mp right
  rw [Binary.lt_iff, div_lt_div_iff_of_pos_right F.scale_pos, Int.cast_lt]
  simp [rank?]

theorem HasValue.le_iff (left : x.HasValue a) (right : y.HasValue b) : x ≤ y ↔ a ≤ b := by
  obtain ⟨negative, units, fits, rfl, rfl⟩ := hasValue_iff.mp left
  obtain ⟨otherNegative, otherUnits, otherFits, rfl, rfl⟩ := hasValue_iff.mp right
  rw [Binary.le_iff, div_le_div_iff_of_pos_right F.scale_pos, Int.cast_le]
  simp [rank?]

theorem HasValue.valueEq_iff (left : x.HasValue a) (right : y.HasValue b) :
    x.ValueEq y ↔ a = b := by
  obtain ⟨negative, units, fits, rfl, rfl⟩ := hasValue_iff.mp left
  obtain ⟨otherNegative, otherUnits, otherFits, rfl, rfl⟩ := hasValue_iff.mp right
  rw [Binary.valueEq_iff, div_left_inj' F.scale_pos.ne', Int.cast_inj]
  simp [rank?, eq_comm]

/-- A magnitude that is at most a finite value is finite. -/
theorem exists_hasValue_of_abs_le (le : x.abs ≤ y) (right : y.HasValue b) :
    ∃ q, x.HasValue q ∧ |q| ≤ b := by
  obtain ⟨negative, units, fits, rfl, rfl⟩ := hasValue_iff.mp right
  obtain ⟨place, other, left, right, ordered⟩ := (Binary.le_iff _ _).mp le
  obtain rfl := Option.some.inj right
  cases x with
  | nan => cases left
  | infinite =>
    obtain rfl := Option.some.inj left
    have limited : signed negative units ≤ units :=
      Int.le_natAbs.trans_eq (by rw [natAbs_signed])
    have limit := fits.1
    rw [signed, if_neg Bool.false_ne_true] at ordered
    exact absurd (ordered.trans limited) (by exact_mod_cast not_le.mpr limit)
  | finite otherNegative otherUnits otherFits =>
    obtain rfl := Option.some.inj left
    refine ⟨_, hasValue_finite otherNegative otherUnits otherFits, ?_⟩
    rw [abs_div, abs_signed, abs_of_pos F.scale_pos, div_le_div_iff_of_pos_right F.scale_pos]
    exact_mod_cast ordered

/-- The whole part of a value is that of its exact magnitude, with the sign put back. -/
theorem HasValue.truncate (value : x.HasValue q) :
    ∃ whole : ℤ, x.truncate = .ok whole ∧ whole.natAbs = ⌊|q|⌋₊ := by
  obtain ⟨negative, units, fits, rfl, rfl⟩ := hasValue_iff.mp value
  refine ⟨_, truncate_finite negative units fits, ?_⟩
  rw [natAbs_signed, abs_div, abs_signed, abs_of_pos F.scale_pos]
  exact (Nat.floor_div_eq_div units F.scale).symm

end Binary

end FlightMath
