import FlightMath.Proofs.Rounding.Units

/-! # The nearest value of a format

`FloatFormat.nearest` carries the rounding of magnitudes over to rational numbers of either sign. It
is odd and monotone, leaves grid values alone, and moves no number further than any grid value is
away from it. Overflow is left out: the grid has no upper limit, and the operations decide apart
whether a rounded value is finite.
-/

namespace FlightMath.FloatFormat

variable (F : FloatFormat)

/-- The number of units in one. -/
def scale : ℕ :=
  2 ^ F.unitExponent

theorem scale_pos : (0 : ℚ) < F.scale := by
  exact_mod_cast Nat.two_pow_pos F.unitExponent

/-- The grid point nearest to a nonnegative number of units. -/
def nearestUnits (units : ℚ) : ℕ :=
  F.roundUnits units.num.toNat units.den

/-- The grid value nearest to a rational number, ties going to an even significand. -/
def nearest (q : ℚ) : ℚ :=
  if q < 0 then -(F.nearestUnits (-q * F.scale) / F.scale)
  else F.nearestUnits (q * F.scale) / F.scale

/-- A rational number whose magnitude is on the grid. -/
def Grid (q : ℚ) : Prop :=
  ∃ units : ℕ, F.OnGrid units ∧ |q| = units / F.scale

private theorem num_toNat_div_den {q : ℚ} (nonneg : 0 ≤ q) : (q.num.toNat : ℚ) / q.den = q := by
  have numerator : (q.num.toNat : ℚ) = q.num := by
    exact_mod_cast Int.toNat_of_nonneg (Rat.num_nonneg.mpr nonneg)
  rw [numerator, Rat.num_div_den]

theorem nearestUnits_div (num : ℕ) {den : ℕ} (positive : 0 < den) :
    F.nearestUnits (num / den) = F.roundUnits num den := by
  have reduced := num_toNat_div_den (show (0 : ℚ) ≤ num / den by positivity)
  have denominator : (den : ℚ) ≠ 0 := by exact_mod_cast positive.ne'
  have denominator' : ((num / den : ℚ).den : ℚ) ≠ 0 := by exact_mod_cast (Rat.den_pos _).ne'
  rw [div_eq_div_iff denominator' denominator] at reduced
  exact F.roundUnits_congr (Rat.den_pos _) positive (by exact_mod_cast reduced)

/-- No grid point is nearer to a nonnegative number of units than its rounding. -/
private theorem abs_nearestUnits_sub_le {units : ℚ} (nonneg : 0 ≤ units) {other : ℕ}
    (grid : F.OnGrid other) : |(F.nearestUnits units : ℚ) - units| ≤ |(other : ℚ) - units| := by
  have bound := F.abs_roundUnits_sub_le_of_onGrid units.num.toNat (Rat.den_pos units) grid
  rwa [num_toNat_div_den nonneg] at bound

/-- Below `2 ^ (precision + low)` units the rounding is within half of `2 ^ low` units. -/
private theorem abs_nearestUnits_sub_le_of_lt {units : ℚ} (nonneg : 0 ≤ units) {low : ℕ}
    (below : units < 2 ^ (F.precision + low)) :
    |(F.nearestUnits units : ℚ) - units| ≤ 2 ^ low / 2 := by
  have denominator : (0 : ℚ) < units.den := by exact_mod_cast units.den_pos
  have small : units.num.toNat < 2 ^ (F.precision + low) * units.den := by
    rw [← num_toNat_div_den nonneg, div_lt_iff₀ denominator] at below
    exact_mod_cast below
  have bound := F.abs_roundUnits_sub_le_of_lt units.den_pos small
  rwa [num_toNat_div_den nonneg] at bound

theorem nearest_of_nonneg {q : ℚ} (nonneg : 0 ≤ q) :
    F.nearest q = F.nearestUnits (q * F.scale) / F.scale :=
  if_neg (not_lt.mpr nonneg)

@[simp] theorem nearest_zero : F.nearest 0 = 0 := by
  have zero := F.nearestUnits_div 0 Nat.one_pos
  have exact : F.roundUnits 0 1 = 0 := by simp [roundUnits, roundHalfEven]
  rw [Nat.cast_zero, zero_div, exact] at zero
  rw [F.nearest_of_nonneg le_rfl, zero_mul, zero, Nat.cast_zero, zero_div]

/-- Rounding does not look at the sign. -/
@[simp] theorem nearest_neg (q : ℚ) : F.nearest (-q) = -F.nearest q := by
  rcases lt_trichotomy q 0 with negative | zero | positive
  · rw [F.nearest_of_nonneg (by linarith), nearest, if_pos negative, neg_neg]
  · simp [zero]
  · rw [F.nearest_of_nonneg positive.le, nearest, if_pos (by linarith), neg_neg]

theorem nearest_nonneg {q : ℚ} (nonneg : 0 ≤ q) : 0 ≤ F.nearest q := by
  rw [F.nearest_of_nonneg nonneg]
  positivity

theorem nearest_abs (q : ℚ) : F.nearest |q| = |F.nearest q| := by
  rcases le_total 0 q with nonneg | nonpos
  · rw [abs_of_nonneg nonneg, abs_of_nonneg (F.nearest_nonneg nonneg)]
  · have opposite := F.nearest_nonneg (neg_nonneg.mpr nonpos)
    rw [nearest_neg] at opposite
    rw [abs_of_nonpos nonpos, nearest_neg, abs_of_nonpos (by linarith)]

variable {F}

theorem Grid.neg {q : ℚ} (grid : F.Grid q) : F.Grid (-q) := by
  obtain ⟨units, onGrid, magnitude⟩ := grid
  exact ⟨units, onGrid, by rw [abs_neg, magnitude]⟩

theorem grid_nearest (q : ℚ) : F.Grid (F.nearest q) := by
  refine ⟨F.nearestUnits (|q| * F.scale), F.onGrid_roundUnits _ _, ?_⟩
  rw [← nearest_abs, F.nearest_of_nonneg (abs_nonneg q)]

/-- No grid value is nearer than the rounded one. -/
theorem abs_nearest_sub_le {q other : ℚ} (grid : F.Grid other) :
    |F.nearest q - q| ≤ |other - q| := by
  have scale := F.scale_pos
  have nonnegative : ∀ p g : ℚ, 0 ≤ p → F.Grid g → |F.nearest p - p| ≤ |g - p| := by
    intro p g nonneg ⟨units, onGrid, magnitude⟩
    have bound := F.abs_nearestUnits_sub_le (mul_nonneg nonneg scale.le) onGrid
    have rescale : ∀ a : ℚ, |a / F.scale - p| = |a - p * F.scale| / F.scale := by
      intro a
      rw [← abs_of_pos scale, ← abs_div, abs_of_pos scale, sub_div,
        mul_div_cancel_right₀ _ scale.ne']
    calc |F.nearest p - p|
        = |(F.nearestUnits (p * F.scale) : ℚ) - p * F.scale| / F.scale := by
          rw [F.nearest_of_nonneg nonneg, rescale]
      _ ≤ |(units : ℚ) - p * F.scale| / F.scale := by gcongr
      _ = abs (|g| - |p|) := by rw [← rescale, magnitude, abs_of_nonneg nonneg]
      _ ≤ |g - p| := abs_abs_sub_abs_le g p
  rcases le_total 0 q with nonneg | nonpos
  · exact nonnegative q other nonneg grid
  · have bound := nonnegative (-q) (-other) (neg_nonneg.mpr nonpos) grid.neg
    rwa [nearest_neg, neg_sub_neg, neg_sub_neg, abs_sub_comm, abs_sub_comm q] at bound

theorem nearest_of_grid {q : ℚ} (grid : F.Grid q) : F.nearest q = q := by
  have bound := abs_nearest_sub_le (q := q) grid
  rw [sub_self, abs_zero, abs_nonpos_iff] at bound
  linarith

/-- Rounding is monotone. If it exchanged two numbers, each would be as near to the rounding of the
other as to its own, and both would lie on the midpoint. -/
theorem nearest_mono {p q : ℚ} (le : p ≤ q) : F.nearest p ≤ F.nearest q := by
  by_contra reversed
  push Not at reversed
  have left := abs_nearest_sub_le (q := p) (grid_nearest (F := F) q)
  have right := abs_nearest_sub_le (q := q) (grid_nearest (F := F) p)
  have midpoint : p = q := by
    rcases abs_cases (F.nearest p - p) with ⟨h₁, _⟩ | ⟨h₁, _⟩ <;>
    rcases abs_cases (F.nearest q - p) with ⟨h₂, _⟩ | ⟨h₂, _⟩ <;>
    rcases abs_cases (F.nearest q - q) with ⟨h₃, _⟩ | ⟨h₃, _⟩ <;>
    rcases abs_cases (F.nearest p - q) with ⟨h₄, _⟩ | ⟨h₄, _⟩ <;> linarith
  rw [midpoint] at reversed
  exact lt_irrefl _ reversed

/-- An upper bound on the grid survives rounding. -/
theorem nearest_le {q bound : ℚ} (grid : F.Grid bound) (le : q ≤ bound) : F.nearest q ≤ bound :=
  (nearest_mono le).trans_eq (nearest_of_grid grid)

/-- A lower bound on the grid survives rounding. -/
theorem le_nearest {q bound : ℚ} (grid : F.Grid bound) (le : bound ≤ q) : bound ≤ F.nearest q :=
  (nearest_of_grid grid).symm.trans_le (nearest_mono le)

theorem abs_nearest_le {q bound : ℚ} (grid : F.Grid bound) (le : |q| ≤ bound) :
    |F.nearest q| ≤ bound := by
  rw [← nearest_abs]
  exact nearest_le grid le

/-! ## Multiples of powers of two -/

/-- A power of two that is no finer than a unit, as a number of units. -/
theorem two_zpow_eq {low : ℤ} (coarse : -(F.unitExponent : ℤ) ≤ low) :
    (2 : ℚ) ^ low = ((2 ^ (low + F.unitExponent).toNat : ℕ) : ℚ) / F.scale := by
  have exponent : ((low + F.unitExponent).toNat : ℤ) = low + F.unitExponent := by omega
  rw [eq_div_iff F.scale_pos.ne', scale]
  push_cast
  rw [← zpow_natCast, ← zpow_natCast, exponent, ← zpow_add₀ two_ne_zero]

/-- A whole multiple of `2 ^ low`. -/
def IsMultiple (low : ℤ) (q : ℚ) : Prop :=
  ∃ significand : ℤ, q = significand * 2 ^ low

theorem IsMultiple.neg {low : ℤ} {q : ℚ} (multiple : IsMultiple low q) : IsMultiple low (-q) := by
  obtain ⟨significand, rfl⟩ := multiple
  exact ⟨-significand, by push_cast; ring⟩

theorem IsMultiple.add {low : ℤ} {p q : ℚ} (left : IsMultiple low p) (right : IsMultiple low q) :
    IsMultiple low (p + q) := by
  obtain ⟨first, rfl⟩ := left
  obtain ⟨second, rfl⟩ := right
  exact ⟨first + second, by push_cast; ring⟩

theorem IsMultiple.sub {low : ℤ} {p q : ℚ} (left : IsMultiple low p) (right : IsMultiple low q) :
    IsMultiple low (p - q) := by
  have opposite : p - q = p + -q := by ring
  exact opposite ▸ left.add right.neg

/-- A multiple that needs at most `precision` bits is on the grid. -/
theorem IsMultiple.grid {low : ℤ} {q : ℚ} (multiple : IsMultiple low q)
    (coarse : -(F.unitExponent : ℤ) ≤ low) (bounded : |q| ≤ 2 ^ (F.precision + low)) :
    F.Grid q := by
  obtain ⟨significand, rfl⟩ := multiple
  have power : |(2 : ℚ) ^ low| = 2 ^ low := abs_of_pos (zpow_pos two_pos low)
  rw [zpow_add₀ two_ne_zero, abs_mul, power, mul_le_mul_iff_left₀ (zpow_pos two_pos low),
    ← Int.cast_abs, zpow_natCast] at bounded
  refine ⟨significand.natAbs * 2 ^ (low + F.unitExponent).toNat, F.onGrid_mul_two_pow _ ?_, ?_⟩
  · have cast : (significand.natAbs : ℤ) ≤ ((2 ^ F.precision : ℕ) : ℤ) := by
      rw [Int.natCast_natAbs]
      exact_mod_cast bounded
    exact_mod_cast cast
  · rw [abs_mul, power, two_zpow_eq coarse, Nat.cast_mul, mul_div_assoc, Nat.cast_natAbs,
      Int.cast_abs]

/-- A large grid value is a multiple of the spacing of the least binade it may be in. -/
theorem Grid.isMultiple {q : ℚ} (low : ℤ) (grid : F.Grid q)
    (coarse : -(F.unitExponent : ℤ) ≤ low) (large : 2 ^ (F.precision - 1 + low) ≤ |q|) :
    IsMultiple low q := by
  obtain ⟨units, onGrid, magnitude⟩ := grid
  have positive := F.precision_pos
  have start : 2 ^ (F.precision - 1 + (low + F.unitExponent).toNat) ≤ units := by
    rw [two_zpow_eq (F := F) (by omega), magnitude, div_le_div_iff_of_pos_right F.scale_pos]
      at large
    have exponent : (F.precision - 1 + low + F.unitExponent).toNat =
        F.precision - 1 + (low + F.unitExponent).toNat := by omega
    rw [exponent] at large
    exact_mod_cast large
  obtain ⟨significand, rfl⟩ := onGrid.dvd start
  have exact : |q| = (significand : ℤ) * 2 ^ low := by
    rw [magnitude, two_zpow_eq coarse]
    push_cast
    ring
  rcases abs_cases q with ⟨same, _⟩ | ⟨opposite, _⟩
  · exact ⟨significand, by rw [← same, exact]⟩
  · exact ⟨-significand, by rw [Int.cast_neg, neg_mul, ← exact, opposite, neg_neg]⟩

/-- The rounding error depends on the magnitude alone. -/
theorem abs_nearest_sub (q : ℚ) : |F.nearest q - q| = abs (F.nearest |q| - |q|) := by
  rcases abs_cases q with ⟨same, _⟩ | ⟨opposite, _⟩
  · rw [same]
  · rw [opposite, nearest_neg, neg_sub_neg, abs_sub_comm]

/-- Below a power of two a rounded value is within half the spacing there. The power itself is on
the grid. -/
theorem abs_nearest_sub_le_two_zpow {q : ℚ} {top : ℤ} (bounded : |q| ≤ 2 ^ top)
    (normal : (F.precision : ℤ) - F.unitExponent ≤ top) :
    |F.nearest q - q| ≤ 2 ^ (top - F.precision) / 2 := by
  have scale := F.scale_pos
  rw [abs_nearest_sub]
  have nonneg := abs_nonneg q
  generalize |q| = p at bounded nonneg
  rcases bounded.eq_or_lt with power | below
  · have multiple : IsMultiple (top - F.precision) p := by
      refine ⟨2 ^ F.precision, ?_⟩
      rw [power, Int.cast_pow, Int.cast_ofNat, ← zpow_natCast, ← zpow_add₀ two_ne_zero,
        add_sub_cancel]
    have grid : F.Grid p := by
      refine multiple.grid (by omega) ?_
      rw [add_sub_cancel, abs_of_nonneg nonneg, power]
    rw [nearest_of_grid grid, sub_self, abs_zero]
    positivity
  · obtain ⟨low, exponent⟩ : ∃ low : ℕ, (low : ℤ) = top - F.precision + F.unitExponent :=
      ⟨(top - F.precision + F.unitExponent).toNat, by omega⟩
    have units : p * F.scale < 2 ^ (F.precision + low) := by
      have binade : (top + F.unitExponent).toNat = F.precision + low := by omega
      rw [two_zpow_eq (F := F) (by omega), lt_div_iff₀ scale, binade] at below
      exact_mod_cast below
    have spacing : (2 : ℚ) ^ (top - F.precision) = 2 ^ low / F.scale := by
      rw [two_zpow_eq (F := F) (by omega), ← exponent, Int.toNat_natCast]
      push_cast
      rfl
    have error : F.nearest p - p =
        ((F.nearestUnits (p * F.scale) : ℚ) - p * F.scale) / F.scale := by
      rw [F.nearest_of_nonneg nonneg, sub_div, mul_div_cancel_right₀ _ scale.ne']
    rw [error, abs_div, abs_of_pos scale, spacing, div_div, mul_comm (F.scale : ℚ), ← div_div]
    exact div_le_div_of_nonneg_right
      (F.abs_nearestUnits_sub_le_of_lt (mul_nonneg nonneg scale.le) units) scale.le

/-- A quotient in the binade above `2 ^ (precision - 1 + step)` leaves `step` bits unused. -/
private theorem shift_of_binade {num den step : ℕ} (positive : 0 < den)
    (lower : 2 ^ (F.precision - 1) * den ≤ num) (upper : num < 2 ^ F.precision * den) :
    F.shift (num * 2 ^ step / den) = step := by
  have precision := F.precision_pos
  have start : 2 ^ (F.precision - 1 + step) ≤ num * 2 ^ step / den := by
    rw [Nat.le_div_iff_mul_le positive, Nat.pow_add, Nat.mul_right_comm]
    exact Nat.mul_le_mul_right _ lower
  have stop : num * 2 ^ step / den < 2 ^ (F.precision + step) := by
    rw [Nat.div_lt_iff_lt_mul positive, Nat.pow_add, Nat.mul_right_comm]
    exact Nat.mul_lt_mul_of_pos_right upper (Nat.two_pow_pos _)
  have nonzero : num * 2 ^ step / den ≠ 0 :=
    (Nat.lt_of_lt_of_le (Nat.two_pow_pos _) start).ne'
  have least := (Nat.le_log2 nonzero).mpr start
  have most := (Nat.log2_lt nonzero).mpr stop
  unfold shift
  omega

/-- Within a binade, rounding rounds the significand to an integer. -/
theorem nearest_of_binade {num den : ℕ} {low : ℤ} (lower : 2 ^ (F.precision - 1) * den ≤ num)
    (upper : num < 2 ^ F.precision * den) (coarse : -(F.unitExponent : ℤ) ≤ low) :
    F.nearest (num / den * 2 ^ low) = roundHalfEven num den * 2 ^ low := by
  have positive : 0 < den := by
    rcases Nat.eq_zero_or_pos den with zero | positive
    · rw [zero, Nat.mul_zero] at upper
      exact absurd upper (Nat.not_lt_zero _)
    · exact positive
  have scale := F.scale_pos
  rw [two_zpow_eq coarse]
  generalize (low + F.unitExponent).toNat = step
  have units : (num / den * ((2 ^ step : ℕ) / F.scale) * F.scale : ℚ) =
      ((num * 2 ^ step : ℕ) : ℚ) / den := by
    push_cast
    field_simp
  have rounded : F.roundUnits (num * 2 ^ step) den = roundHalfEven num den * 2 ^ step := by
    unfold roundUnits
    dsimp only
    rw [shift_of_binade positive lower upper, roundHalfEven_mul_right _ _ (Nat.two_pow_pos _)]
  rw [F.nearest_of_nonneg (by positivity), units, F.nearestUnits_div _ positive, rounded,
    Nat.cast_mul, mul_div_assoc]

end FlightMath.FloatFormat
