import FlightMath.Proofs.Integer.Division
import Mathlib.Algebra.Order.Field.Rat
import Mathlib.Algebra.Order.Floor.Ring
import Mathlib.Data.Rat.Floor
import Mathlib.Tactic.Linarith
import Mathlib.Tactic.FieldSimp
import Mathlib.Tactic.Ring

/-! # Factors made from proper fractions

A ratio of magnitude at most one has at most 4096 4096ths, so its factor fits into a word, and a
short integer times the factor fits into a short integer: nothing wraps. Two roundings are left. The
factor is less than a 4096th away from the ratio, which the value multiplies, and the product is
rounded down. For a ratio that is not negative both roundings go down, and its hundredths come out
as their floor or one less.
-/

namespace FlightMath

/-- A quotient rounded toward zero is less than one away from the exact one. -/
private theorem abs_tdiv_sub_lt_one (num : ℤ) {den : ℤ} (nonzero : den ≠ 0) :
    |((num.tdiv den : ℤ) : ℚ) - num / den| < 1 := by
  have rules := isDivision_tdiv_tmod num nonzero
  have division : (num : ℚ) = den * (num.tdiv den : ℤ) + (num.tmod den : ℤ) := by
    exact_mod_cast rules.exact
  have remainder : |((num.tmod den : ℤ) : ℚ)| < |(den : ℚ)| := by
    exact_mod_cast rules.smaller
  have divisor : (den : ℚ) ≠ 0 := Int.cast_ne_zero.mpr nonzero
  have error : ((num.tdiv den : ℤ) : ℚ) - num / den = -((num.tmod den : ℤ) / den : ℚ) := by
    field_simp
    linarith
  rw [error, abs_neg, abs_div, div_lt_one (abs_pos.mpr divisor)]
  exact remainder

/-- A quotient rounded down is at most the exact one, and less than one below it. -/
theorem ediv_le_and_lt (num : ℤ) {den : ℤ} (positive : 0 < den) :
    ((num / den : ℤ) : ℚ) ≤ num / den ∧ (num / den : ℚ) < (num / den : ℤ) + 1 := by
  have divisor : (0 : ℚ) < den := by exact_mod_cast positive
  constructor
  · rw [le_div_iff₀ divisor]
    exact_mod_cast Int.ediv_mul_le num positive.ne'
  · rw [div_lt_iff₀ divisor]
    exact_mod_cast Int.lt_ediv_add_one_mul_self num positive

namespace Q12

variable {num den value : ℤ} {factor lesser : Q12} {ratio : ℚ}

private theorem cast_two_pow_fractionBits : ((2 ^ fractionBits : ℤ) : ℚ) = 4096 := by
  norm_num [fractionBits]

/-- The shift that follows a product divides by 4096 and rounds down. -/
theorem shifted_le_and_lt (product : ℤ) :
    ((product / 2 ^ fractionBits : ℤ) : ℚ) ≤ product / 4096 ∧
      (product / 4096 : ℚ) < (product / 2 ^ fractionBits : ℤ) + 1 := by
  have positive : (0 : ℤ) < 2 ^ fractionBits := by decide
  rw [← cast_two_pow_fractionBits]
  exact ediv_le_and_lt product positive

/-! ## The factor of a ratio -/

/-- The 4096ths of a ratio, rounded toward zero and not wrapped. -/
def ofFraction (num den : ℤ) : Q12 :=
  ⟨(num * 2 ^ fractionBits).tdiv den⟩

private theorem cast_scaled_div (num den : ℤ) :
    ((num * 2 ^ fractionBits : ℤ) : ℚ) / den = 4096 * (num / den) := by
  rw [Int.cast_mul, cast_two_pow_fractionBits]
  ring

private theorem abs_raw_ofFraction_le (le : |num| ≤ |den|) : |(ofFraction num den).raw| ≤ 4096 := by
  rw [Int.abs_eq_natAbs, Int.abs_eq_natAbs] at le
  have steps : num.natAbs * 4096 / den.natAbs ≤ 4096 := by
    apply Nat.div_le_of_le_mul
    exact Nat.mul_le_mul_right _ (by exact_mod_cast le)
  have magnitude : (num * 2 ^ fractionBits).natAbs = num.natAbs * 4096 := Int.natAbs_mul _ _
  rw [ofFraction, Int.abs_eq_natAbs, Int.natAbs_tdiv, magnitude]
  exact_mod_cast steps

/-- The 4096ths of a proper fraction do not wrap. -/
theorem ofRatio?_of_abs_le (nonzero : den ≠ 0) (le : |num| ≤ |den|) :
    ofRatio? num den = some (ofFraction num den) := by
  obtain ⟨lower, upper⟩ := abs_le.mp (abs_raw_ofFraction_le le)
  have fits : InWidth wordBits (ofFraction num den).raw := by
    constructor
    · exact le_trans (by decide) lower
    · exact lt_of_le_of_lt upper (by decide)
  rw [ofRatio?_of_ne_zero num nonzero]
  exact congrArg (fun raw => some (Q12.mk raw)) (wrap_of_inWidth (by decide) fits)

private theorem abs_raw_ofFraction_sub_lt (num : ℤ) (nonzero : den ≠ 0) :
    |(ofFraction num den).raw - 4096 * (num / den : ℚ)| < 1 := by
  have near := abs_tdiv_sub_lt_one (num * 2 ^ fractionBits) nonzero
  rwa [cast_scaled_div] at near

/-- The 4096ths of a ratio that is not negative are rounded down. -/
private theorem raw_ofFraction_bounds (nonneg : 0 ≤ num) (positive : 0 < den) :
    (ofFraction num den).raw ≤ 4096 * (num / den : ℚ) ∧
      4096 * (num / den : ℚ) < (ofFraction num den).raw + 1 := by
  have scaled : 0 ≤ num * 2 ^ fractionBits := mul_nonneg nonneg (by decide)
  have bounds := ediv_le_and_lt (num * 2 ^ fractionBits) positive
  rwa [cast_scaled_div, ← Int.tdiv_eq_ediv_of_nonneg scaled] at bounds

/-! ## Scaled values -/

/-- The product with the factor is shifted and does not wrap, and it is near the exact one. -/
structure ScalesNear (factor : Q12) (ratio : ℚ) (value : ℤ) : Prop where
  unwrapped : factor.scale value = value * factor.raw / 2 ^ fractionBits
  near : |factor.scale value - value * ratio| < |(value : ℚ)| / 4096 + 1

private theorem scale_of_bounded (bounded : |factor.raw| ≤ 4096) (short : |value| ≤ 32767) :
    factor.scale value = value * factor.raw / 2 ^ fractionBits := by
  have size : |value * factor.raw| ≤ 32767 * 4096 := by
    rw [abs_mul]
    exact mul_le_mul short bounded (abs_nonneg _) (by norm_num)
  have fits : InWidth shortBits (value * factor.raw / 2 ^ fractionBits) := by
    obtain ⟨lower, upper⟩ := abs_le.mp size
    generalize value * factor.raw = product at lower upper
    unfold InWidth shortBits fractionBits
    omega
  rw [scale, wrapShort, wrap_of_inWidth (by decide) fits]

/-- The error of the factor is multiplied by the value, and the shift adds less than one. -/
private theorem scalesNear_of_near (bounded : |factor.raw| ≤ 4096)
    (near : |factor.raw - 4096 * ratio| < 1) (short : |value| ≤ 32767) :
    ScalesNear factor ratio value := by
  have unwrapped := scale_of_bounded bounded short
  refine ⟨unwrapped, ?_⟩
  have shifted := shifted_le_and_lt (value * factor.raw)
  rw [← unwrapped, Int.cast_mul] at shifted
  have carried : |(value * factor.raw / 4096 - value * ratio : ℚ)| ≤ |(value : ℚ)| / 4096 := by
    have split : (value * factor.raw / 4096 - value * ratio : ℚ) =
        value / 4096 * (factor.raw - 4096 * ratio) := by ring
    rw [split, abs_mul, abs_div, abs_of_pos (by norm_num : (0 : ℚ) < 4096)]
    exact mul_le_of_le_one_right (by positivity) near.le
  obtain ⟨least, most⟩ := abs_le.mp carried
  rw [abs_lt]
  constructor
  · linarith [shifted.2]
  · linarith [shifted.1, abs_nonneg (value : ℚ)]

/-! ## Hundredths -/

/-- The hundredths are the floor of those of the ratio or one less, at most a hundred, and no lesser
ratio has more of them. -/
structure PercentNear (factor : Q12) (ratio : ℚ) : Prop where
  floor : factor.percent = ⌊100 * ratio⌋ ∨ factor.percent = ⌊100 * ratio⌋ - 1
  le_hundred : factor.percent ≤ 100
  mono : ∀ num den : ℤ, 0 ≤ num → 0 < den → (num / den : ℚ) ≤ ratio →
    ∃ lesser, ofRatio? num den = some lesser ∧ lesser.percent ≤ factor.percent

private theorem percent_of_bounded (bounded : |factor.raw| ≤ 4096) :
    factor.percent = 100 * factor.raw / 2 ^ fractionBits :=
  scale_of_bounded bounded (by decide)

private theorem percent_le_percent (bounded : |factor.raw| ≤ 4096) (bounded' : |lesser.raw| ≤ 4096)
    (le : lesser.raw ≤ factor.raw) : lesser.percent ≤ factor.percent := by
  rw [percent_of_bounded bounded, percent_of_bounded bounded']
  exact Int.ediv_le_ediv (by decide) (by omega)

/-- A count of 4096ths that is rounded down is less than one hundredth short. -/
private theorem percent_eq_floor_or (bounded : |factor.raw| ≤ 4096)
    (lower : factor.raw ≤ 4096 * ratio) (upper : 4096 * ratio < factor.raw + 1) :
    factor.percent = ⌊100 * ratio⌋ ∨ factor.percent = ⌊100 * ratio⌋ - 1 := by
  have shifted := shifted_le_and_lt (100 * factor.raw)
  rw [← percent_of_bounded bounded, Int.cast_mul, Int.cast_ofNat] at shifted
  have least : factor.percent ≤ ⌊100 * ratio⌋ := by
    rw [Int.le_floor]
    linarith [shifted.1]
  have most : ⌊100 * ratio⌋ < factor.percent + 2 := by
    rw [Int.floor_lt]
    push_cast
    linarith [shifted.2]
  omega

private theorem percentNear_ofFraction (nonneg : 0 ≤ num) (positive : 0 < den) (le : num ≤ den) :
    PercentNear (ofFraction num den) (num / den) := by
  have bounded : |(ofFraction num den).raw| ≤ 4096 := by
    apply abs_raw_ofFraction_le
    rwa [abs_of_nonneg nonneg, abs_of_pos positive]
  obtain ⟨lower, upper⟩ := raw_ofFraction_bounds nonneg positive
  refine ⟨percent_eq_floor_or bounded lower upper, ?_, ?_⟩
  · have most := (abs_le.mp bounded).2
    rw [percent_of_bounded bounded, fractionBits]
    omega
  · intro num' den' nonneg' positive' lesser
    have proper : |num'| ≤ |den'| := by
      have divisor : (0 : ℚ) < den := by exact_mod_cast positive
      have divisor' : (0 : ℚ) < den' := by exact_mod_cast positive'
      have one : (num' / den' : ℚ) ≤ 1 :=
        lesser.trans ((div_le_one divisor).mpr (by exact_mod_cast le))
      rw [abs_of_nonneg nonneg', abs_of_pos positive']
      exact_mod_cast (div_le_one divisor').mp one
    have counts : (ofFraction num' den').raw ≤ (ofFraction num den).raw := by
      have below := (raw_ofFraction_bounds nonneg' positive').1
      have strict : ((ofFraction num' den').raw : ℚ) < (ofFraction num den).raw + 1 := by
        linarith
      exact Int.lt_add_one_iff.mp (by exact_mod_cast strict)
    exact ⟨_, ofRatio?_of_abs_le positive'.ne' proper,
      percent_le_percent bounded (abs_raw_ofFraction_le proper) counts⟩

/-! ## Proper fractions -/

/-- The factor of a proper fraction exists, scales every short integer but the least one near to the
exact product, and has the hundredths of a fraction that is not negative, or one less. -/
theorem ofRatio?_scalesNear_percentNear (num den : ℤ) (nonzero : den ≠ 0) (le : |num| ≤ |den|) :
    ∃ factor, ofRatio? num den = some factor ∧
      (∀ value : ℤ, |value| ≤ 32767 → ScalesNear factor (num / den) value) ∧
      (0 ≤ num → 0 < den → PercentNear factor (num / den)) := by
  refine ⟨_, ofRatio?_of_abs_le nonzero le, ?_, ?_⟩
  · intro value short
    exact scalesNear_of_near (abs_raw_ofFraction_le le) (abs_raw_ofFraction_sub_lt num nonzero)
      short
  · intro nonneg positive
    rw [abs_of_nonneg nonneg, abs_of_pos positive] at le
    exact percentNear_ofFraction nonneg positive le

/-- One hundredth has forty 4096ths, and these are less than one hundredth. -/
theorem ofRatio?_scalesNear_percentNear_hundredth :
    (100 : ℤ) ≠ 0 ∧ |(1 : ℤ)| ≤ |(100 : ℤ)| ∧ |(-32767 : ℤ)| ≤ 32767 ∧ (0 : ℤ) ≤ 1 ∧
      (0 : ℤ) < 100 ∧ ∃ factor, ofRatio? 1 100 = some factor ∧
        ScalesNear factor ((1 : ℤ) / (100 : ℤ)) (-32767) ∧
        PercentNear factor ((1 : ℤ) / (100 : ℤ)) := by
  have nonzero : (100 : ℤ) ≠ 0 := by decide
  have le : |(1 : ℤ)| ≤ |(100 : ℤ)| := by decide
  have short : |(-32767 : ℤ)| ≤ 32767 := by decide
  have nonneg : (0 : ℤ) ≤ 1 := by decide
  have positive : (0 : ℤ) < 100 := by decide
  obtain ⟨factor, found, scales, percent⟩ := ofRatio?_scalesNear_percentNear 1 100 nonzero le
  exact ⟨nonzero, le, short, nonneg, positive, factor, found, scales _ short,
    percent nonneg positive⟩

example : (ofRatio? 1 100).map percent = some 0 ∧
    (ofRatio? 1 100).map (fun factor => factor.scale (-32767)) = some (-320) := by
  decide

end Q12

end FlightMath
