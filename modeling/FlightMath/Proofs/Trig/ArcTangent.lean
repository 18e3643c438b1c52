import FlightMath.Proofs.Trig.Accuracy
import FlightMath.Proofs.Trig.TangentFraction
import FlightMath.Trig.ArcTangent

/-! # The arc tangent of a ratio

The fraction is evaluated from the inside out, one product and one sum a step. Each intermediate
value lies between bounds that zero or a coefficient sets, so the numerator cannot vanish, and each
rounding errs by half of the spacing below the power of two above it. The computed arc tangent of a
ratio is therefore positive, below an eighth of a turn and a little, and near the true one.
-/

namespace FlightMath

open FloatFormat Horner

/-! ## Steps between bounds -/

/-- Bounds on the grid that a power of two limits, and with it the rounding error between them. -/
structure Room (low high : ℚ) (top : ℤ) : Prop extends Binary.Bounds single low high where
  coarse : -125 ≤ top
  lower : -2 ^ top ≤ low
  upper : high ≤ 2 ^ top

/-- Whole multiples of the last bit below four are such bounds. -/
theorem Room.of_check {low high : ℚ} {top : ℤ} (check : (low * 2 ^ 22).den = 1 ∧
    (high * 2 ^ 22).den = 1 ∧ -125 ≤ top ∧ top ≤ 2 ∧ -2 ^ top ≤ low ∧ low ≤ high ∧ high ≤ 2 ^ top) :
    Room low high top := by
  obtain ⟨lowWhole, highWhole, coarse, small, lower, ordered, upper⟩ := check
  have multiple : ∀ {q : ℚ}, (q * 2 ^ 22).den = 1 → IsMultiple (-22) q := by
    intro q whole
    refine ⟨(q * 2 ^ 22).num, ?_⟩
    rw [Rat.coe_int_num_of_den_eq_one whole, zpow_neg]
    exact (mul_inv_cancel_right₀ (by norm_num) q).symm
  have four : (2 : ℚ) ^ top ≤ 4 := (zpow_le_zpow_right₀ one_le_two small).trans (by norm_num)
  exact ⟨single_bounds (multiple lowWhole) (multiple highWhole) (by linarith) ordered (by linarith),
    coarse, lower, upper⟩

/-- The value lies between bounds and within an error of an exact number. -/
structure Tracks (x : Single) (low high exact error : ℚ) : Prop where
  within : x.Within low high
  near : |x.toRat - exact| ≤ error

variable {x r c : Single} {low high low' high' exact error a q t : ℚ} {top top' : ℤ}

/-- A computed result tracks the exact one it rounds. -/
theorem Room.tracks (room : Room low high top) (rounds : x.Rounds q) (lower : low ≤ q)
    (upper : q ≤ high) : Tracks x low high q (2 ^ (top - 25)) := by
  have value := rounds.hasValue (room.abs_le_largest lower upper)
  have bounded : |q| ≤ 2 ^ top := abs_le.mpr ⟨room.lower.trans lower, upper.trans room.upper⟩
  exact ⟨room.within value lower upper,
    value.2 ▸ Binary.abs_single_nearest_sub_le room.coarse bounded⟩

/-- One step of the evaluation at a ratio. It takes the product with a tail, which the bounds of the
tail still hold, and adds the next coefficient. -/
theorem Tracks.mul_add (tail : Tracks x low high exact error) (room : Room low high top)
    (nonpos : low ≤ 0) (nonneg : 0 ≤ high) (ratio : r.HasValue t) (unit : t ∈ Set.Icc 0 1)
    (head : c.HasValue a) (next : Room low' high' top') (lower : low' ≤ low + a)
    (upper : high + a ≤ high') :
    Tracks (x * r + c) low' high' (exact * t + a) (error + 2 ^ (top - 25) + 2 ^ (top' - 25)) := by
  obtain ⟨b, hasTail, tailLower, tailUpper⟩ := tail.within.exists_hasValue
  have tailNear : |b - exact| ≤ error := hasTail.2 ▸ tail.near
  have productLower : low ≤ b * t :=
    calc low ≤ low * t := by linarith [mul_nonneg (neg_nonneg.mpr nonpos) (sub_nonneg.mpr unit.2)]
      _ ≤ b * t := mul_le_mul_of_nonneg_right tailLower unit.1
  have productUpper : b * t ≤ high :=
    (mul_le_mul_of_nonneg_right tailUpper unit.1).trans (mul_le_of_le_one_right nonneg unit.2)
  have product := room.tracks (hasTail.rounds_mul ratio) productLower productUpper
  obtain ⟨p, hasProduct, roundedLower, roundedUpper⟩ := product.within.exists_hasValue
  have productNear : |p - b * t| ≤ 2 ^ (top - 25) := hasProduct.2 ▸ product.near
  have sum := next.tracks (hasProduct.rounds_add head) (by linarith) (by linarith)
  have scaled : |(b - exact) * t| ≤ error := by
    rw [abs_mul, abs_of_nonneg unit.1]
    exact (mul_le_of_le_one_right (abs_nonneg _) unit.2).trans tailNear
  have split : (x * r + c).toRat - (exact * t + a) =
      (b - exact) * t + (p - b * t) + ((x * r + c).toRat - (p + a)) := by ring
  refine ⟨sum.within, ?_⟩
  rw [split]
  exact (abs_add_three _ _ _).trans (add_le_add (add_le_add scaled productNear) sum.near)

/-! ## The numerator and the denominator -/

/-- The exact coefficients of the fraction. -/
theorem hasValue_arcTangentCoefficients :
    arcTangentCoefficients.first.HasValue (11067303 / 2 ^ 45) ∧
      arcTangentCoefficients.second.HasValue (16776773 / 2 ^ 24) ∧
      arcTangentCoefficients.third.HasValue (1236817 / 2 ^ 23) ∧
      arcTangentCoefficients.fourth.HasValue (10401251 / 2 ^ 25) ∧
      arcTangentCoefficients.fifth.HasValue (13502777 / 2 ^ 28) ∧
      arcTangentCoefficients.sixth.HasValue (9871977 / 2 ^ 26) ∧
      arcTangentCoefficients.seventh.HasValue (10812313 / 2 ^ 24) := by
  decide +kernel

/-- The numerator, with its sign reversed, is at most the opposite of the first coefficient. -/
theorem tracks_above (ratio : r.HasValue t) (unit : t ∈ Set.Icc 0 1) :
    Tracks (arcTangentCoefficients.above r) (-2) (-(11067303 / 2 ^ 45))
      (-eval arcTangentNumerator t) (241 / 10 ^ 9) := by
  obtain ⟨first, second, third, fourth, fifth, -, -⟩ := hasValue_arcTangentCoefficients
  have room₅ : Room 0 (1 / 16) (-4) := .of_check (by decide +kernel)
  have room₄ : Room (-5 / 16) 0 (-1) := .of_check (by decide +kernel)
  have room₃ : Room (-1 / 2) 0 (-1) := .of_check (by decide +kernel)
  have room₂ : Room (-3 / 2) 0 1 := .of_check (by decide +kernel)
  have fromTwo : Room (-2) 0 1 := .of_check (by decide +kernel)
  have room₁ : Room (-2) (-(11067303 / 2 ^ 45)) 1 :=
    ⟨⟨fromTwo.grid_low, first.grid.neg, fromTwo.largest_low,
      le_trans (by norm_num) fromTwo.largest_high⟩, fromTwo.coarse, fromTwo.lower, by norm_num⟩
  have step₅ : Tracks arcTangentCoefficients.fifth 0 (1 / 16) (13502777 / 2 ^ 28) 0 :=
    ⟨fifth.within (by norm_num) (by norm_num), by rw [fifth.2, sub_self, abs_zero]⟩
  have step₄ := step₅.mul_add room₅ (by norm_num) (by norm_num) ratio unit fourth.neg room₄
    (by norm_num) (by norm_num)
  have step₃ := step₄.mul_add room₄ (by norm_num) (by norm_num) ratio unit third.neg room₃
    (by norm_num) (by norm_num)
  have step₂ := step₃.mul_add room₃ (by norm_num) (by norm_num) ratio unit second.neg room₂
    (by norm_num) (by norm_num)
  have step₁ := step₂.mul_add room₂ (by norm_num) (by norm_num) ratio unit first.neg room₁
    (by norm_num) (by norm_num)
  have exact : -eval arcTangentNumerator t =
      (((13502777 / 2 ^ 28 * t + -(10401251 / 2 ^ 25)) * t + -(1236817 / 2 ^ 23)) * t +
        -(16776773 / 2 ^ 24)) * t + -(11067303 / 2 ^ 45) := by
    simp only [arcTangentNumerator, eval]
    ring
  rw [exact]
  exact ⟨step₁.within, step₁.near.trans (by norm_num)⟩

/-- The denominator is at least one. -/
theorem tracks_below (ratio : r.HasValue t) (unit : t ∈ Set.Icc 0 1) :
    Tracks (arcTangentCoefficients.below r) 1 2 (eval arcTangentDenominator t) (150 / 10 ^ 9) := by
  obtain ⟨-, -, -, -, -, sixth, seventh⟩ := hasValue_arcTangentCoefficients
  have room₇ : Room 0 (3 / 4) 0 := .of_check (by decide +kernel)
  have room₆ : Room 0 1 0 := .of_check (by decide +kernel)
  have room₀ : Room 1 2 1 := .of_check (by decide +kernel)
  have step₇ : Tracks arcTangentCoefficients.seventh 0 (3 / 4) (10812313 / 2 ^ 24) 0 :=
    ⟨seventh.within (by norm_num) (by norm_num), by rw [seventh.2, sub_self, abs_zero]⟩
  have step₆ := step₇.mul_add room₇ le_rfl (by norm_num) ratio unit sixth room₆
    (by norm_num) (by norm_num)
  have step₀ := step₆.mul_add room₆ le_rfl zero_le_one ratio unit Binary.hasValue_one room₀
    (by norm_num) (by norm_num)
  have exact : eval arcTangentDenominator t =
      (10812313 / 2 ^ 24 * t + 9871977 / 2 ^ 26) * t + 1 := by
    simp only [arcTangentDenominator, eval]
    ring
  rw [exact]
  exact ⟨step₀.within, step₀.near.trans (by norm_num)⟩

/-! ## The quotient -/

/-- A lower bound of the arc tangent of a ratio, and what zero leads to. -/
def leastArcTangent : ℚ := 11067303 / 2 ^ 46

/-- The bounds of the arc tangent of a ratio. -/
theorem room_firstOctant : Room leastArcTangent (13 / 16) 0 := by
  have fromZero : Room 0 (13 / 16) 0 := .of_check (by decide +kernel)
  have multiple : IsMultiple (-46) leastArcTangent := ⟨11067303, by norm_num [leastArcTangent]⟩
  have grid := multiple.grid (F := single) (by decide)
    (by norm_num [leastArcTangent, single, abs_le])
  exact ⟨⟨grid, fromZero.grid_high, fromZero.largest_low.trans (by norm_num [leastArcTangent]),
    fromZero.largest_high⟩, fromZero.coarse, by norm_num [leastArcTangent], fromZero.upper⟩

/-- The quotient that is rounded last lies between those bounds and near the fraction. -/
theorem eval_rounds (ratio : r.HasValue t) (unit : t ∈ Set.Icc 0 1) :
    ∃ q : ℚ, (arcTangentCoefficients.eval r).Rounds q ∧ leastArcTangent ≤ q ∧ q ≤ 13 / 16 ∧
      |q - arcTangentFraction t| ≤ 36 / 10 ^ 8 := by
  have above := tracks_above ratio unit
  have below := tracks_below ratio unit
  obtain ⟨n, hasNumerator, -, numeratorUpper⟩ := above.within.exists_hasValue
  obtain ⟨d, hasDenominator, denominatorLower, denominatorUpper⟩ := below.within.exists_hasValue
  have numeratorNear : |-n - eval arcTangentNumerator t| ≤ 241 / 10 ^ 9 := by
    rw [← abs_neg, neg_sub', neg_neg, ← hasNumerator.2]
    exact above.near
  have denominatorNear : |d - eval arcTangentDenominator t| ≤ 150 / 10 ^ 9 :=
    hasDenominator.2 ▸ below.near
  have near := Binary.abs_div_sub_div_le numeratorNear denominatorNear one_pos
    denominatorLower (zero_lt_one.trans_le (one_le_arcTangentDenominator unit.1)).ne'
  rw [← arcTangentFraction, div_one] at near
  have size := abs_arcTangentFraction_le unit.1 unit.2
  have near' : |-n / d - arcTangentFraction t| ≤ 36 / 10 ^ 8 := by linarith
  refine ⟨-n / d, hasNumerator.neg.rounds_div hasDenominator (by linarith), ?_, ?_, near'⟩
  · rw [le_div_iff₀ (by linarith), leastArcTangent]
    linarith
  · linarith [(abs_le.mp near').2, le_abs_self (arcTangentFraction t)]

/-- The computed arc tangent of a ratio is positive and near the true one. -/
theorem abs_eval_sub_arctan_le (ratio : r.HasValue t) (unit : t ∈ Set.Icc 0 1) :
    ∃ angle : ℚ, (arcTangentCoefficients.eval r).HasValue angle ∧ leastArcTangent ≤ angle ∧
      angle ≤ 13 / 16 ∧ |(angle : ℝ) - Real.arctan t| ≤ 746 / 10 ^ 9 := by
  obtain ⟨q, rounds, lower, upper, near⟩ := eval_rounds ratio unit
  have quotient := room_firstOctant.tracks rounds lower upper
  obtain ⟨angle, value, angleLower, angleUpper⟩ := quotient.within.exists_hasValue
  have rounding : |angle - q| ≤ 2 ^ (0 - 25 : ℤ) := value.2 ▸ quotient.near
  refine ⟨angle, value, angleLower, angleUpper, ?_⟩
  refine (abs_sub_le _ (q : ℝ) _).trans ((add_le_add (abs_cast_sub_le rounding)
    ((abs_sub_le _ _ _).trans (add_le_add (abs_cast_sub_le near)
      (abs_arcTangentFraction_sub_arctan_le unit.1 unit.2)))).trans ?_)
  norm_num

end FlightMath
