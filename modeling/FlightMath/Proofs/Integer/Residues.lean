import FlightMath.Integer.Width
import Mathlib.Algebra.Order.Group.Unbundled.Int
import Mathlib.Data.Int.ModEq

/-! # Arithmetic in a fixed width

The integers of a range are less than its size apart, so no two of them are congruent modulo that
size: wrapping picks the only one that is congruent to a value. Sums, differences and products of
congruent integers are congruent. It therefore makes no difference whether a computation wraps after
each step or once at its end.
-/

namespace FlightMath

variable {bits : ℕ} {a b value wrapped : ℤ}

private theorem wrap_modEq (bits : ℕ) (value : ℤ) : wrap bits value ≡ value [ZMOD 2 ^ bits] :=
  wrap_emod bits value

/-- No two integers of a range are congruent. -/
theorem InWidth.eq_of_modEq (positive : 0 < bits) (left : InWidth bits a) (right : InWidth bits b)
    (congruent : a ≡ b [ZMOD 2 ^ bits]) : a = b := by
  have range := two_pow_eq_double positive
  obtain ⟨lower, upper⟩ := left
  obtain ⟨lower', upper'⟩ := right
  have near : |b - a| < 2 ^ bits := by
    rw [abs_lt]
    omega
  have same := Int.eq_zero_of_abs_lt_dvd congruent.dvd near
  omega

private theorem eq_wrap_iff (positive : 0 < bits) :
    wrapped = wrap bits value ↔ InWidth bits wrapped ∧ wrapped ≡ value [ZMOD 2 ^ bits] := by
  constructor
  · rintro rfl
    exact ⟨inWidth_wrap positive value, wrap_modEq bits value⟩
  · rintro ⟨within, congruent⟩
    exact within.eq_of_modEq positive (inWidth_wrap positive value)
      (congruent.trans (wrap_modEq bits value).symm)

private theorem wrap_congr (congruent : a ≡ b [ZMOD 2 ^ bits]) : wrap bits a = wrap bits b := by
  rw [wrap, wrap, congruent.add_right (2 ^ (bits - 1))]

/-- Operands may be wrapped before a sum, a difference or a product that is wrapped itself. -/
structure WrapsOnce (bits : ℕ) (a b : ℤ) : Prop where
  add : wrap bits (wrap bits a + wrap bits b) = wrap bits (a + b)
  sub : wrap bits (wrap bits a - wrap bits b) = wrap bits (a - b)
  mul : wrap bits (wrap bits a * wrap bits b) = wrap bits (a * b)

private theorem wrapsOnce (bits : ℕ) (a b : ℤ) : WrapsOnce bits a b where
  add := wrap_congr ((wrap_modEq bits a).add (wrap_modEq bits b))
  sub := wrap_congr ((wrap_modEq bits a).sub (wrap_modEq bits b))
  mul := wrap_congr ((wrap_modEq bits a).mul (wrap_modEq bits b))

/-- A width of at least one bit is accepted; the wrapped value is the only one of its range that is
congruent to the value, and it carries the ring operations. -/
theorem wrap?_residue_wrapsOnce (bits : ℕ) (positive : 1 ≤ bits) :
    (∀ value : ℤ, wrap? bits value = .ok (wrap bits value) ∧
      ∀ wrapped, wrapped = wrap bits value ↔
        InWidth bits wrapped ∧ wrapped ≡ value [ZMOD 2 ^ bits]) ∧
      ∀ a b : ℤ, WrapsOnce bits a b := by
  refine ⟨fun value => ⟨?_, fun wrapped => eq_wrap_iff positive⟩, wrapsOnce bits⟩
  rw [wrap?_eq_ok_iff]
  exact ⟨by exact_mod_cast positive, rfl⟩

/-- One below the short integers stands at their other end. -/
theorem wrap?_residue_wrapsOnce_short :
    1 ≤ shortBits ∧ InWidth shortBits (2 ^ 15 - 1) ∧
      2 ^ 15 - 1 ≡ -2 ^ 15 - 1 [ZMOD 2 ^ shortBits] ∧
      wrap? shortBits (-2 ^ 15 - 1) = .ok (2 ^ 15 - 1) ∧
      WrapsOnce shortBits (2 ^ 15) (-2 ^ 15 - 1) := by
  have positive : 1 ≤ shortBits := by decide
  have within : InWidth shortBits (2 ^ 15 - 1) := by decide
  have congruent : 2 ^ 15 - 1 ≡ -2 ^ 15 - 1 [ZMOD 2 ^ shortBits] := by decide
  obtain ⟨residue, once⟩ := wrap?_residue_wrapsOnce shortBits positive
  obtain ⟨accepted, only⟩ := residue (-2 ^ 15 - 1)
  rw [← (only _).mpr ⟨within, congruent⟩] at accepted
  exact ⟨positive, within, congruent, accepted, once _ _⟩

example : wrap 1 3 = -1 ∧ wrapShort (200 * 200) = -25536 ∧ wrapWord (2 ^ 31) = -2 ^ 31 := by
  decide

end FlightMath
