import FlightMath.Integer.Fixed
import Mathlib.Algebra.Order.Group.Unbundled.Int
import Mathlib.Algebra.Order.Ring.Abs
import Mathlib.Algebra.Order.Ring.Int
import Mathlib.Tactic.Linarith
import Mathlib.Tactic.Ring

/-! # Division toward zero

A quotient and a remainder are determined by three rules: they make up the dividend, the remainder
is smaller than the divisor, and it is not on the other side of zero than the dividend. The rules
hold of a common multiple of dividend and divisor with the same quotient, whatever the sign of the
factor, so a ratio may be reduced or extended before it is divided.
-/

namespace FlightMath

variable {num den quotient rest quotient' rest' factor : ℤ}

/-- A division of `num` by `den` toward zero. -/
structure IsDivision (num den quotient rest : ℤ) : Prop where
  exact : num = den * quotient + rest
  smaller : |rest| < |den|
  side : rest = 0 ∨ rest.sign = num.sign

namespace IsDivision

theorem rest_nonneg (division : IsDivision num den quotient rest) (nonneg : 0 ≤ num) :
    0 ≤ rest := by
  rcases division.side with none | same
  · exact none.ge
  · rwa [← Int.sign_nonneg_iff, same, Int.sign_nonneg_iff]

theorem rest_nonpos (division : IsDivision num den quotient rest) (nonpos : num ≤ 0) :
    rest ≤ 0 := by
  rcases division.side with none | same
  · exact none.le
  · rwa [← Int.sign_nonpos_iff, same, Int.sign_nonpos_iff]

/-- Two remainders are on one side of zero, so they are less than the divisor apart. -/
theorem abs_rest_sub_rest_lt (division : IsDivision num den quotient rest)
    (other : IsDivision num den quotient' rest') : |rest - rest'| < |den| := by
  have smaller := division.smaller
  have smaller' := other.smaller
  rcases le_total 0 num with nonneg | nonpos
  · have left := division.rest_nonneg nonneg
    have right := other.rest_nonneg nonneg
    rw [abs_of_nonneg left] at smaller
    rw [abs_of_nonneg right] at smaller'
    exact abs_lt.mpr ⟨by linarith, by linarith⟩
  · have left := division.rest_nonpos nonpos
    have right := other.rest_nonpos nonpos
    rw [abs_of_nonpos left] at smaller
    rw [abs_of_nonpos right] at smaller'
    exact abs_lt.mpr ⟨by linarith, by linarith⟩

theorem unique (division : IsDivision num den quotient rest)
    (other : IsDivision num den quotient' rest') : quotient = quotient' ∧ rest = rest' := by
  have total := division.exact.symm.trans other.exact
  have divides : |den| ∣ rest - rest' := by
    rw [abs_dvd]
    exact ⟨quotient' - quotient, by linarith⟩
  have same := Int.eq_zero_of_abs_lt_dvd divides (division.abs_rest_sub_rest_lt other)
  have nonzero : den ≠ 0 := abs_pos.mp ((abs_nonneg rest).trans_lt division.smaller)
  refine ⟨mul_left_cancel₀ nonzero ?_, sub_eq_zero.mp same⟩
  linarith

/-- A common factor multiplies the remainder and leaves the quotient. -/
theorem mul_left (division : IsDivision num den quotient rest) (nonzero : factor ≠ 0) :
    IsDivision (factor * num) (factor * den) quotient (factor * rest) where
  exact := by
    rw [division.exact]
    ring
  smaller := by
    rw [abs_mul, abs_mul]
    exact mul_lt_mul_of_pos_left division.smaller (abs_pos.mpr nonzero)
  side := by
    rcases division.side with none | same
    · exact .inl (by rw [none, mul_zero])
    · exact .inr (by rw [Int.sign_mul, Int.sign_mul, same])

end IsDivision

/-! ## The rounded quotient -/

theorem isDivision_tdiv_tmod (num : ℤ) (nonzero : den ≠ 0) :
    IsDivision num den (num.tdiv den) (num.tmod den) where
  exact := (Int.mul_tdiv_add_tmod num den).symm
  smaller := by
    rw [Int.abs_eq_natAbs, Int.abs_eq_natAbs]
    exact_mod_cast natAbs_tmod_lt num nonzero
  side := by
    rw [Int.sign_tmod]
    split_ifs with divides
    · exact .inl (Int.tmod_eq_zero_of_dvd divides)
    · exact .inr rfl

/-- Neither operation sees a common factor, but the remainder grows with it. -/
theorem quotient?_remainder?_mul_left (num : ℤ) (nonzero : den ≠ 0) (nonzero' : factor ≠ 0) :
    quotient? (factor * num) (factor * den) = quotient? num den ∧
      remainder? (factor * num) (factor * den) = (remainder? num den).map (factor * ·) := by
  have scaled := mul_ne_zero nonzero' nonzero
  obtain ⟨quotients, remainders⟩ := (isDivision_tdiv_tmod (factor * num) scaled).unique
    ((isDivision_tdiv_tmod num nonzero).mul_left nonzero')
  rw [quotient?_of_ne_zero _ scaled, quotient?_of_ne_zero _ nonzero, quotients,
    remainder?_of_ne_zero _ scaled, remainder?_of_ne_zero _ nonzero, remainders, Option.map_some]
  exact ⟨rfl, rfl⟩

private theorem Q12.ofRatio?_mul_left (num : ℤ) (nonzero : den ≠ 0) (nonzero' : factor ≠ 0) :
    Q12.ofRatio? (factor * num) (factor * den) = Q12.ofRatio? num den := by
  rw [Q12.ofRatio?, Q12.ofRatio?, mul_assoc,
    (quotient?_remainder?_mul_left _ nonzero nonzero').1]

/-- A divisor other than zero has a quotient and a remainder, which are the only ones that divide
toward zero. A common factor leaves the quotient and the factor of the ratio as they are and
multiplies the remainder. -/
theorem quotient?_remainder?_divide (num den : ℤ) (nonzero : den ≠ 0) :
    ∃ quotient rest fraction, quotient? num den = some quotient ∧
      remainder? num den = some rest ∧ Q12.ofRatio? num den = some fraction ∧
      (∀ quotient' rest', IsDivision num den quotient' rest' ↔
        quotient' = quotient ∧ rest' = rest) ∧
      ∀ factor ≠ 0, quotient? (factor * num) (factor * den) = some quotient ∧
        remainder? (factor * num) (factor * den) = some (factor * rest) ∧
        Q12.ofRatio? (factor * num) (factor * den) = some fraction := by
  have division := isDivision_tdiv_tmod num nonzero
  have quotients := quotient?_of_ne_zero num nonzero
  have remainders := remainder?_of_ne_zero num nonzero
  have fractions := Q12.ofRatio?_of_ne_zero num nonzero
  refine ⟨_, _, _, quotients, remainders, fractions, fun quotient' rest' => ⟨?_, ?_⟩, ?_⟩
  · exact fun other => other.unique division
  · rintro ⟨rfl, rfl⟩
    exact division
  · intro factor nonzero'
    obtain ⟨quotients', remainders'⟩ := quotient?_remainder?_mul_left num nonzero nonzero'
    rw [quotients', remainders', Q12.ofRatio?_mul_left num nonzero nonzero', remainders]
    exact ⟨quotients, rfl, fractions⟩

/-- Minus seven halves, extended by minus three. -/
theorem quotient?_remainder?_divide_negative :
    (2 : ℤ) ≠ 0 ∧ (-3 : ℤ) ≠ 0 ∧ quotient? (-7) 2 = some (-3) ∧ remainder? (-7) 2 = some (-1) ∧
      Q12.ofRatio? (-7) 2 = some ⟨-14336⟩ ∧
      (∀ quotient rest, IsDivision (-7) 2 quotient rest ↔ quotient = -3 ∧ rest = -1) ∧
      quotient? (-3 * -7) (-3 * 2) = some (-3) ∧ remainder? (-3 * -7) (-3 * 2) = some (-3 * -1) ∧
      Q12.ofRatio? (-3 * -7) (-3 * 2) = some ⟨-14336⟩ := by
  have nonzero : (2 : ℤ) ≠ 0 := by decide
  have nonzero' : (-3 : ℤ) ≠ 0 := by decide
  have three : quotient? (-7) 2 = some (-3) := by decide
  have one : remainder? (-7) 2 = some (-1) := by decide
  have count : Q12.ofRatio? (-7) 2 = some ⟨-14336⟩ := by decide
  obtain ⟨quotient, rest, fraction, quotients, remainders, fractions, only, scaled⟩ :=
    quotient?_remainder?_divide (-7) 2 nonzero
  obtain rfl := Option.some.inj (three.symm.trans quotients)
  obtain rfl := Option.some.inj (one.symm.trans remainders)
  obtain rfl := Option.some.inj (count.symm.trans fractions)
  exact ⟨nonzero, nonzero', three, one, count, only, scaled _ nonzero'⟩

example : quotient? 7 (-2) = some (-3) ∧ remainder? 7 (-2) = some 1 ∧
    quotient? (-7) (-2) = some 3 ∧ remainder? (-7) (-2) = some (-1) := by
  decide

end FlightMath
