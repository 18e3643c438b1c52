import FlightMath.Integer.Truncated
import FlightMath.Power
import FlightMath.Proofs.Loop
import Mathlib.Algebra.Ring.Divisibility.Basic
import Mathlib.Algebra.Ring.Int.Defs
import Mathlib.Data.Int.GCD
import Mathlib.Data.Nat.Size

/-! # Euclid's algorithm on operands of either sign

The remainder takes the sign of the dividend, so the operands may change sign from round to round.
Neither the common divisors nor the size of the remainder depend on signs: a round keeps the common
divisors of its operands, and two rounds halve the divisor. The run therefore ends before any
remainder by zero is taken, after two rounds for each bit of the divisor at most, and the common
divisors of the operands are the divisors of what is left.
-/

namespace FlightMath

/-! ## Rounds -/

namespace Euclid

/-- The divisor is not zero, and no remainder has failed before. -/
def Continues (operands : Option (ℤ × ℤ)) : Prop :=
  ∃ num den, operands = some (num, den) ∧ den ≠ 0

/-- The divisor takes the place of the dividend and the remainder that of the divisor. Nothing is
left if the remainder fails. -/
def next (operands : Option (ℤ × ℤ)) : Option (ℤ × ℤ) :=
  operands.bind fun (num, den) => (remainder? num den).map fun rest => (den, rest)

/-- The run from two operands ends with this divisor after so many rounds, none of which fails. -/
def Ends (rounds : ℕ) (num den divisor : ℤ) : Prop :=
  Loop Continues next rounds (some (num, den)) (some (divisor, 0))

private theorem ends_zero (num : ℤ) : Ends 0 num 0 num := by
  refine Loop.stop ?_
  rintro ⟨dividend, divisor, same, nonzero⟩
  cases same
  exact nonzero rfl

private theorem next_of_ne_zero {den : ℤ} (num : ℤ) (nonzero : den ≠ 0) :
    next (some (num, den)) = some (den, num.tmod den) := by
  show (remainder? num den).map _ = _
  rw [remainder?_of_ne_zero num nonzero, Option.map_some]

theorem Ends.succ {rounds : ℕ} {num den divisor : ℤ} (nonzero : den ≠ 0)
    (rest : Ends rounds den (num.tmod den) divisor) : Ends (rounds + 1) num den divisor := by
  refine Loop.round ⟨num, den, rfl, nonzero⟩ ?_
  rw [next_of_ne_zero num nonzero]
  exact rest

/-- The second remainder is less than half the divisor, since the first remainder and it fit into
the divisor side by side. -/
private theorem two_mul_natAbs_tmod_lt {den rest : ℤ} (nonzero : rest ≠ 0)
    (less : rest.natAbs < den.natAbs) : 2 * (den.tmod rest).natAbs < den.natAbs := by
  have positive : 0 < rest.natAbs := Int.natAbs_pos.mpr nonzero
  rw [Int.natAbs_tmod]
  have remainder := Nat.mod_lt den.natAbs positive
  have division := Nat.div_add_mod den.natAbs rest.natAbs
  have fits : rest.natAbs ≤ rest.natAbs * (den.natAbs / rest.natAbs) :=
    Nat.le_mul_of_pos_right _ (Nat.div_pos less.le positive)
  omega

/-- Two rounds take a bit off the divisor. -/
theorem exists_ends (bits : ℕ) (num : ℤ) {den : ℤ} (small : den.natAbs < 2 ^ bits) :
    ∃ rounds ≤ 2 * bits, Ends rounds num den (euclid num den) := by
  induction bits generalizing num den with
  | zero =>
    obtain rfl : den = 0 := by omega
    rw [euclid_zero]
    exact ⟨0, le_rfl, ends_zero num⟩
  | succ bits ih =>
    by_cases done : den = 0
    · subst done
      rw [euclid_zero]
      exact ⟨0, Nat.zero_le _, ends_zero num⟩
    rw [euclid_of_ne_zero num done]
    have less := natAbs_tmod_lt num done
    by_cases exact : num.tmod den = 0
    · rw [exact, euclid_zero]
      have last := ends_zero den
      rw [← exact] at last
      exact ⟨1, by omega, last.succ done⟩
    · rw [euclid_of_ne_zero den exact]
      have half : (den.tmod (num.tmod den)).natAbs < 2 ^ bits := by
        have twice := two_mul_natAbs_tmod_lt exact less
        rw [pow_succ] at small
        omega
      obtain ⟨rounds, few, run⟩ := ih (num.tmod den) half
      exact ⟨rounds + 1 + 1, by omega, (run.succ exact).succ done⟩

end Euclid

/-! ## Divisors -/

/-- A round keeps the common divisors. -/
private theorem dvd_and_dvd_tmod_iff (d num den : ℤ) :
    d ∣ den ∧ d ∣ num.tmod den ↔ d ∣ num ∧ d ∣ den := by
  rw [Int.tmod_def, and_comm]
  refine and_congr_left fun divides => ?_
  exact dvd_sub_left (divides.mul_right _)

/-- The common divisors of the operands are the divisors of the result. -/
theorem dvd_euclid_iff (d num den : ℤ) : d ∣ euclid num den ↔ d ∣ num ∧ d ∣ den := by
  fun_induction euclid num den with
  | case1 num =>
    exact ⟨fun divides => ⟨divides, Int.dvd_zero d⟩, And.left⟩
  | case2 num den nonzero ih => exact ih.trans (dvd_and_dvd_tmod_iff d num den)

private theorem euclid_nonneg {num den : ℤ} (nonneg : 0 ≤ num) (nonneg' : 0 ≤ den) :
    0 ≤ euclid num den := by
  fun_induction euclid num den with
  | case1 num => exact nonneg
  | case2 num den nonzero ih => exact ih nonneg' (Int.tmod_nonneg den nonneg)

/-- A common divisor that every other divides; its size is the greatest of all, and zero for zeros.
-/
structure IsGreatestDivisor (num den divisor : ℤ) : Prop where
  left : divisor ∣ num
  right : divisor ∣ den
  greatest : ∀ d, d ∣ num → d ∣ den → d ∣ divisor
  natAbs_eq : divisor.natAbs = Int.gcd num den

private theorem isGreatestDivisor_euclid (num den : ℤ) :
    IsGreatestDivisor num den (euclid num den) := by
  obtain ⟨left, right⟩ := (dvd_euclid_iff _ num den).mp dvd_rfl
  have greatest (d : ℤ) (first : d ∣ num) (second : d ∣ den) : d ∣ euclid num den :=
    (dvd_euclid_iff d num den).mpr ⟨first, second⟩
  refine ⟨left, right, greatest, ?_⟩
  apply Nat.dvd_antisymm
  · exact Int.dvd_gcd (Int.natAbs_dvd.mpr left) (Int.natAbs_dvd.mpr right)
  · exact Int.natCast_dvd.mp (greatest _ (Int.gcd_dvd_left ..) (Int.gcd_dvd_right ..))

/-- The run ends without a remainder by zero, at a greatest common divisor, which is not negative if
the operands are not. -/
theorem euclid_ends_isGreatestDivisor (num den : ℤ) :
    (∃ rounds ≤ 2 * den.natAbs.size, Euclid.Ends rounds num den (euclid num den)) ∧
      IsGreatestDivisor num den (euclid num den) ∧
      (0 ≤ num → 0 ≤ den → 0 ≤ euclid num den) :=
  ⟨Euclid.exists_ends _ num (Nat.lt_size_self _), isGreatestDivisor_euclid num den, euclid_nonneg⟩

/-- Neighbours in Fibonacci's sequence, of which each remainder is the one before. -/
theorem euclid_ends_isGreatestDivisor_fibonacci :
    (0 : ℤ) ≤ 13 ∧ (0 : ℤ) ≤ 21 ∧ (∃ rounds ≤ 10, Euclid.Ends rounds 13 21 (euclid 13 21)) ∧
      IsGreatestDivisor 13 21 (euclid 13 21) ∧ 0 ≤ euclid 13 21 := by
  have nonneg : (0 : ℤ) ≤ 13 := by decide
  have nonneg' : (0 : ℤ) ≤ 21 := by decide
  have bits : (21 : ℤ).natAbs.size = 5 := by decide
  obtain ⟨ends, divisor, sign⟩ := euclid_ends_isGreatestDivisor 13 21
  rw [bits] at ends
  exact ⟨nonneg, nonneg', ends, divisor, sign nonneg nonneg'⟩

example : euclid 4 (-2) = -2 ∧ euclid (-4) 2 = 2 ∧ euclid 0 0 = 0 := by
  cbv

end FlightMath
