import FlightMath.Power

/-! # Integers of a fixed width

`wrap` keeps the low bits of an integer of any size and reads them in two's complement. Widths are
natural numbers; `wrap?` takes a width that is itself an integer and refuses one that is not
positive.
-/

namespace FlightMath

/-- The number of bits of a short integer. -/
def shortBits : Nat := 16

/-- The number of bits of a word. -/
def wordBits : Nat := 32

/-- The integer in `[-2 ^ (bits - 1), 2 ^ (bits - 1))` that is congruent to `value`. The remainder
is taken half a range higher up, where the range starts at zero. -/
def wrap (bits : Nat) (value : Int) : Int :=
  (value + 2 ^ (bits - 1)) % 2 ^ bits - 2 ^ (bits - 1)

/-- Within the range of a width. -/
def InWidth (bits : Nat) (value : Int) : Prop :=
  -2 ^ (bits - 1) ≤ value ∧ value < 2 ^ (bits - 1)

instance (bits : Nat) (value : Int) : Decidable (InWidth bits value) :=
  inferInstanceAs (Decidable (_ ∧ _))

/-- Wraps to 16 bits. -/
abbrev wrapShort : Int → Int := wrap shortBits

/-- Wraps to 32 bits. -/
abbrev wrapWord : Int → Int := wrap wordBits

/-- The width has no bit to hold a sign. -/
inductive WidthError where
  | notPositive
deriving DecidableEq, Repr

/-- The text that reports the error. -/
def WidthError.message : WidthError → String
  | .notPositive => "negative shift count"

/-- Wraps to a width that may turn out not to be positive. -/
def wrap? (bits value : Int) : Except WidthError Int :=
  if bits ≤ 0 then .error .notPositive else .ok (wrap bits.toNat value)

theorem wrap?_eq_ok_iff (bits value wrapped : Int) :
    wrap? bits value = .ok wrapped ↔ 0 < bits ∧ wrap bits.toNat value = wrapped := by
  unfold wrap?
  split
  · next notPositive => simp; omega
  · next positive => simp; omega

/-- A range is twice as long as its half. -/
theorem two_pow_eq_double {bits : Nat} (positive : 0 < bits) :
    (2 : Int) ^ bits = 2 * 2 ^ (bits - 1) := by
  obtain ⟨rest, rfl⟩ : ∃ rest, bits = rest + 1 := ⟨bits - 1, by omega⟩
  rw [Int.pow_succ, Int.mul_comm, Nat.add_sub_cancel]

/-- Wrapping changes a value by a multiple of the range's size. -/
theorem wrap_emod (bits : Nat) (value : Int) : wrap bits value % 2 ^ bits = value % 2 ^ bits := by
  rw [wrap, Int.emod_sub_emod, Int.add_sub_cancel]

theorem inWidth_wrap {bits : Nat} (positive : 0 < bits) (value : Int) :
    InWidth bits (wrap bits value) := by
  have range := two_pow_eq_double positive
  have half : (0 : Int) < 2 ^ (bits - 1) := Int.pow_pos (by decide)
  have lower := Int.emod_nonneg (value + 2 ^ (bits - 1)) (b := 2 ^ bits) (by omega)
  have upper := Int.emod_lt_of_pos (value + 2 ^ (bits - 1)) (b := 2 ^ bits) (by omega)
  unfold InWidth wrap
  omega

/-- Wrapping leaves the values of its range alone. -/
theorem wrap_of_inWidth {bits : Nat} {value : Int} (positive : 0 < bits)
    (within : InWidth bits value) : wrap bits value = value := by
  obtain ⟨lower, upper⟩ := within
  have range := two_pow_eq_double positive
  rw [wrap, Int.emod_eq_of_lt (by omega) (by omega), Int.add_sub_cancel]

end FlightMath
