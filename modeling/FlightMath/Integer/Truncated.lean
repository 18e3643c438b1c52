/-! # Division toward zero

The quotient rounds toward zero and the remainder takes the sign of the dividend. Both fail on a
zero divisor and on nothing else. Euclid's algorithm runs on that remainder, so its operands may
change sign on the way; the size of the divisor still falls at each step.
-/

namespace FlightMath

/-- The quotient rounded toward zero, or nothing for a zero divisor. The sizes are divided, and the
result is negated if one operand alone is negative. -/
def quotient? (num den : Int) : Option Int :=
  if den = 0 then none
  else
    let size : Nat := num.natAbs / den.natAbs
    some (if num < 0 ↔ den < 0 then size else -size)

/-- The remainder with the sign of the dividend, or nothing for a zero divisor. -/
def remainder? (num den : Int) : Option Int :=
  (quotient? num den).map fun quotient => num - den * quotient

@[simp] theorem quotient?_zero (num : Int) : quotient? num 0 = none := rfl

@[simp] theorem remainder?_zero (num : Int) : remainder? num 0 = none := rfl

private theorem tdiv_eq_natAbs_div (num den : Int) : num.tdiv den =
    if num < 0 ↔ den < 0 then ((num.natAbs / den.natAbs : Nat) : Int)
    else -((num.natAbs / den.natAbs : Nat) : Int) := by
  have nonneg (n : Nat) : ¬ Int.ofNat n < 0 := Int.not_lt.mpr (Int.natCast_nonneg n)
  have negative (n : Nat) : Int.negSucc n < 0 := Int.negSucc_lt_zero n
  cases num with
  | ofNat n =>
    cases den with
    | ofNat d =>
      rw [if_pos (iff_of_false (nonneg n) (nonneg d))]
      rfl
    | negSucc d =>
      rw [if_neg fun same => nonneg n (same.mpr (negative d))]
      rfl
  | negSucc n =>
    cases den with
    | ofNat d =>
      rw [if_neg fun same => nonneg d (same.mp (negative n))]
      rfl
    | negSucc d =>
      rw [if_pos (iff_of_true (negative n) (negative d))]
      rfl

theorem quotient?_of_ne_zero {den : Int} (num : Int) (nonzero : den ≠ 0) :
    quotient? num den = some (num.tdiv den) := by
  rw [quotient?, if_neg nonzero, tdiv_eq_natAbs_div]

theorem remainder?_of_ne_zero {den : Int} (num : Int) (nonzero : den ≠ 0) :
    remainder? num den = some (num.tmod den) := by
  rw [remainder?, quotient?_of_ne_zero num nonzero, Option.map_some, Int.tmod_def]

/-- The remainder is smaller than the divisor. -/
theorem natAbs_tmod_lt {den : Int} (num : Int) (nonzero : den ≠ 0) :
    (num.tmod den).natAbs < den.natAbs := by
  rw [Int.natAbs_tmod]
  exact Nat.mod_lt _ (Int.natAbs_pos.mpr nonzero)

/-- The last nonzero remainder of Euclid's algorithm; a zero divisor ends it at once. -/
def euclid (num den : Int) : Int :=
  if den = 0 then num else euclid den (num.tmod den)
termination_by den.natAbs
decreasing_by
  exact natAbs_tmod_lt num ‹_›

@[simp] theorem euclid_zero (num : Int) : euclid num 0 = num := by
  rw [euclid, if_pos rfl]

theorem euclid_of_ne_zero {den : Int} (num : Int) (nonzero : den ≠ 0) :
    euclid num den = euclid den (num.tmod den) := by
  rw [euclid, if_neg nonzero]

end FlightMath
