import FlightMath.Binary.Basic

/-! # Correctly rounded square roots

`floorSqrt` finds the integer root one binary digit at a time, and `sqrt` rounds it once. An inexact
root is rounded as the midpoint between the integer root and its successor: no grid point and no tie
lies strictly between those two, so the midpoint rounds as the root itself does.
-/

namespace FlightMath

/-- The leading digits of the integer root of `n`, of which there are at most `digits`. -/
def sqrtDigits : Nat → Nat → Nat
  | 0, _ => 0
  | digits + 1, n =>
      let root := 2 * sqrtDigits digits (n / 4)
      if (root + 1) * (root + 1) ≤ n then root + 1 else root

/-- The greatest integer whose square is at most `n`. -/
def floorSqrt (n : Nat) : Nat :=
  sqrtDigits (n.log2 / 2 + 1) n

private theorem sqrtDigits_bounds {digits n : Nat} (enough : n < 4 ^ digits) :
    sqrtDigits digits n * sqrtDigits digits n ≤ n ∧
      n < (sqrtDigits digits n + 1) * (sqrtDigits digits n + 1) := by
  induction digits generalizing n with
  | zero => simp at enough; subst enough; simp [sqrtDigits]
  | succ digits ih =>
    have quarter : n / 4 < 4 ^ digits := by rw [Nat.pow_succ] at enough; omega
    have ⟨lower, upper⟩ := ih quarter
    simp only [sqrtDigits]
    generalize sqrtDigits digits (n / 4) = root at lower upper
    have double : 2 * root * (2 * root) = 4 * (root * root) := by
      rw [Nat.mul_mul_mul_comm]
    have next : (2 * root + 1 + 1) * (2 * root + 1 + 1) = 4 * ((root + 1) * (root + 1)) := by
      rw [show 2 * root + 1 + 1 = 2 * (root + 1) by omega, Nat.mul_mul_mul_comm]
    split
    · next fits => exact ⟨fits, by omega⟩
    · next exceeds => exact ⟨by omega, by omega⟩

theorem floorSqrt_bounds (n : Nat) :
    floorSqrt n * floorSqrt n ≤ n ∧ n < (floorSqrt n + 1) * (floorSqrt n + 1) := by
  apply sqrtDigits_bounds
  rw [show (4 : Nat) = 2 ^ 2 by rfl, ← Nat.pow_mul]
  exact Nat.lt_of_lt_of_le Nat.lt_log2_self (Nat.pow_le_pow_right Nat.two_pos (by omega))

namespace Binary

variable {F : FloatFormat}

/-- The root of a zero is that zero, and the root of a negative number is NaN. -/
def sqrt : Binary F → Binary F
  | .nan => .nan
  | .infinite negative => if negative then .nan else .infinite false
  | .finite negative units fits =>
      if units = 0 then .finite negative units fits
      else if negative then .nan
      else
        let square := units * 2 ^ F.unitExponent
        let root := floorSqrt square
        round false (2 * root + if root * root = square then 0 else 1) 2

@[simp] theorem sqrt_nan : (nan : Binary F).sqrt = nan := rfl

@[simp] theorem sqrt_zero (negative : Bool) : (zero negative : Binary F).sqrt = zero negative := rfl

end Binary

end FlightMath
