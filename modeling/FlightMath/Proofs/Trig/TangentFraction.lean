import FlightMath.Proofs.Analysis.Derivative

/-! # The fraction of the arc tangent

In exact arithmetic the fraction is within `3.6e-7` of the arc tangent between zero and one. A
polynomial stands between them. Its derivative times `1 + t ^ 2` is near one, so it is near the arc
tangent, and with the denominator cleared it is near the fraction. Each of the two is a check on
rational numbers.
-/

namespace FlightMath

open Horner

/-- The exact coefficients above the line. -/
def arcTangentNumerator : List ℚ :=
  [11067303 / 2 ^ 45, 16776773 / 2 ^ 24, 1236817 / 2 ^ 23, 10401251 / 2 ^ 25, -13502777 / 2 ^ 28]

/-- The exact coefficients below the line. -/
def arcTangentDenominator : List ℚ :=
  [1, 9871977 / 2 ^ 26, 10812313 / 2 ^ 24]

/-- The exact value of the fraction. -/
def arcTangentFraction (t : ℚ) : ℚ :=
  eval arcTangentNumerator t / eval arcTangentDenominator t

theorem one_le_arcTangentDenominator {t : ℚ} (nonneg : 0 ≤ t) :
    1 ≤ eval arcTangentDenominator t := by
  simp only [arcTangentDenominator, eval]
  refine le_add_of_nonneg_right ?_
  positivity

/-- Between zero and one, a polynomial within `6e-9` of the arc tangent. -/
def arcTangentPolynomial : List ℚ :=
  [0, 10000000031, -5308, -3333131911, -3421247, 2032579923, -194233666, -659024638, -2085465057,
    4984473355, -4759560399, 2503488807, -721790869, 90072612].map (· / 10 ^ 10)

variable {x : ℝ} {t : ℚ}

/-- The check of a polynomial on pieces of the unit interval bounds it there. -/
theorem evalReal_le_of_keeps {p : List ℚ} {bound : ℚ} (keeps : Keeps p 0 (1 / 128) 128 bound)
    (mem : x ∈ Set.Icc 0 1) : evalReal p x ≤ bound :=
  keeps.evalReal_le (by norm_num) (by norm_num) (Rat.cast_zero.trans_le mem.1)
    (mem.2.trans_eq (by norm_num))

/-! ## The polynomial and the arc tangent -/

/-- What the derivative times `1 + t ^ 2` is above one. -/
def slopeExcess : List ℚ :=
  add [-1] (mul [1, 0, 1] (derivative arcTangentPolynomial))

private theorem keeps_slopeExcess :
    Keeps slopeExcess 0 (1 / 128) 128 (6 / 10 ^ 9) ∧
      Keeps (slopeExcess.map (-1 * ·)) 0 (1 / 128) 128 (6 / 10 ^ 9) := by
  decide +kernel

private theorem abs_slopeExcess_le (mem : x ∈ Set.Icc 0 1) :
    |evalReal slopeExcess x| ≤ 6 / 10 ^ 9 := by
  have above := evalReal_le_of_keeps keeps_slopeExcess.1 mem
  have below := evalReal_le_of_keeps keeps_slopeExcess.2 mem
  rw [evalReal_map_mul] at below
  push_cast at above below
  exact abs_le.mpr ⟨by linarith, above⟩

private theorem abs_slope_sub_le (mem : x ∈ Set.Icc 0 1) :
    |evalReal (derivative arcTangentPolynomial) x - 1 / (1 + x ^ 2)| ≤ 6 / 10 ^ 9 := by
  have excess := abs_slopeExcess_le mem
  have one : 1 ≤ 1 + x ^ 2 := le_add_of_nonneg_right (sq_nonneg x)
  have value : evalReal slopeExcess x =
      (evalReal (derivative arcTangentPolynomial) x - 1 / (1 + x ^ 2)) * (1 + x ^ 2) := by
    rw [sub_mul, div_mul_cancel₀ _ (by linarith), slopeExcess, evalReal_add, evalReal_mul]
    simp only [evalReal]
    push_cast
    ring
  rw [value, abs_mul, abs_of_pos (by linarith : 0 < 1 + x ^ 2)] at excess
  exact (le_mul_of_one_le_right (abs_nonneg _) one).trans excess

private theorem abs_arcTangentPolynomial_sub_arctan_le (mem : x ∈ Set.Icc 0 1) :
    |evalReal arcTangentPolynomial x - Real.arctan x| ≤ 6 / 10 ^ 9 := by
  have start : evalReal arcTangentPolynomial 0 = Real.arctan 0 := by
    simp [arcTangentPolynomial, evalReal]
  have near := abs_evalReal_sub_le Real.hasDerivAt_arctan (fun _ => abs_slope_sub_le) start mem
  exact near.trans (mul_le_of_le_one_right (by norm_num) mem.2)

/-! ## The fraction and the polynomial -/

/-- The numerator less what it would be at an allowance below the polynomial. -/
def fractionExcess (allowance : ℚ) : List ℚ :=
  add arcTangentNumerator
    (mul (add [allowance] (arcTangentPolynomial.map (-1 * ·))) arcTangentDenominator)

private theorem evalReal_fractionExcess (allowance : ℚ) (x : ℝ) :
    evalReal (fractionExcess allowance) x = evalReal arcTangentNumerator x -
      (evalReal arcTangentPolynomial x - allowance) * evalReal arcTangentDenominator x := by
  rw [fractionExcess, evalReal_add, evalReal_mul, evalReal_add, evalReal_map_mul]
  simp only [evalReal]
  push_cast
  ring

private theorem keeps_fractionExcess :
    Keeps (fractionExcess (-350 / 10 ^ 9)) 0 (1 / 128) 128 0 ∧
      Keeps ((fractionExcess (350 / 10 ^ 9)).map (-1 * ·)) 0 (1 / 128) 128 0 := by
  decide +kernel

private theorem abs_arcTangentFraction_sub_polynomial_le (nonneg : 0 ≤ t) (le : t ≤ 1) :
    |(arcTangentFraction t : ℝ) - evalReal arcTangentPolynomial t| ≤ 350 / 10 ^ 9 := by
  have mem : (t : ℝ) ∈ Set.Icc 0 1 := ⟨by exact_mod_cast nonneg, by exact_mod_cast le⟩
  have above := evalReal_le_of_keeps keeps_fractionExcess.1 mem
  have below := evalReal_le_of_keeps keeps_fractionExcess.2 mem
  have positive : 0 < evalReal arcTangentDenominator t := by
    rw [← cast_eval]
    exact_mod_cast zero_lt_one.trans_le (one_le_arcTangentDenominator nonneg)
  rw [evalReal_map_mul, evalReal_fractionExcess] at below
  rw [evalReal_fractionExcess] at above
  rw [arcTangentFraction, Rat.cast_div, cast_eval, cast_eval, abs_sub_le_iff, sub_le_iff_le_add,
    div_le_iff₀ positive, sub_le_comm, le_div_iff₀ positive]
  push_cast at above below
  constructor <;> linarith

/-! ## The fraction and the arc tangent -/

theorem abs_arcTangentFraction_sub_arctan_le (nonneg : 0 ≤ t) (le : t ≤ 1) :
    |(arcTangentFraction t : ℝ) - Real.arctan t| ≤ 356 / 10 ^ 9 := by
  have mem : (t : ℝ) ∈ Set.Icc 0 1 := ⟨by exact_mod_cast nonneg, by exact_mod_cast le⟩
  refine (abs_sub_le _ _ _).trans ((add_le_add (abs_arcTangentFraction_sub_polynomial_le nonneg le)
    (abs_arcTangentPolynomial_sub_arctan_le mem)).trans_eq ?_)
  norm_num

/-- The fraction ends at an eighth of a turn. -/
theorem abs_arcTangentFraction_le (nonneg : 0 ≤ t) (le : t ≤ 1) :
    |arcTangentFraction t| ≤ 79 / 100 := by
  obtain ⟨lower, upper⟩ := abs_le.mp (abs_arcTangentFraction_sub_arctan_le nonneg le)
  have start : 0 ≤ Real.arctan t := Real.arctan_nonneg.mpr (by exact_mod_cast nonneg)
  have eighth : Real.arctan t ≤ Real.pi / 4 := by
    rw [← Real.arctan_one]
    exact Real.arctan_mono (by exact_mod_cast le)
  have bound : |(arcTangentFraction t : ℝ)| ≤ ((79 / 100 : ℚ) : ℝ) := by
    push_cast
    exact abs_le.mpr ⟨by linarith, by linarith [Real.pi_lt_d4]⟩
  exact_mod_cast bound

end FlightMath
