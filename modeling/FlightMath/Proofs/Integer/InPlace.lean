import FlightMath.Integer.Difference
import Mathlib.Order.MinMax

/-! # What differences written in place leave behind

The run writes the indices below its count that all three arrays have, and no others. The round
that writes an entry is the last one that reads its index. What an operand supplies is therefore
what it held before the run, also where it is the array that is being written.
-/

namespace FlightMath

/-- All that an operand holds. -/
def Operand.entries (operand : Operand) (target : Array ℤ) : Array ℤ :=
  match operand with
  | .target => target
  | .separate entries => entries

theorem Operand.read?_eq_getElem? (operand : Operand) (target : Array ℤ) (index : ℕ) :
    operand.read? target index = (operand.entries target)[index]? := by
  cases operand <;> rfl

/-- The number of indices that the target and both operands have. -/
def reach (target : Array ℤ) (left right : Operand) : ℕ :=
  min target.size (min (left.entries target).size (right.entries target).size)

private theorem lt_reach_iff (target : Array ℤ) (left right : Operand) (index : ℕ) :
    index < reach target left right ↔ index < target.size ∧
      index < (left.entries target).size ∧ index < (right.entries target).size := by
  rw [reach, lt_min_iff, lt_min_iff]

/-- Only the size of the target counts. -/
private theorem reach_congr {target target' : Array ℤ} (same : target.size = target'.size)
    (left right : Operand) : reach target left right = reach target' left right := by
  have entries_size (operand : Operand) :
      (operand.entries target).size = (operand.entries target').size := by
    cases operand with
    | target => exact same
    | separate entries => rfl
  rw [reach, same, entries_size left, entries_size right, reach]

/-! ## One round -/

variable {left right : Operand} {before current next : Array ℤ} {index : ℕ}

private theorem subtractAt?_eq_some_iff :
    subtractAt? left right current index = some next ↔
      ∃ minuend subtrahend, left.read? current index = some minuend ∧
        right.read? current index = some subtrahend ∧ index < current.size ∧
        next = current.setIfInBounds index (wrapWord (minuend - subtrahend)) := by
  rw [subtractAt?]
  constructor
  · intro written
    obtain ⟨minuend, first, written⟩ := Option.bind_eq_some_iff.mp written
    obtain ⟨subtrahend, second, written⟩ := Option.bind_eq_some_iff.mp written
    split at written
    · next within =>
      exact ⟨minuend, subtrahend, first, second, within, (Option.some.inj written).symm⟩
    · cases written
  · rintro ⟨minuend, subtrahend, first, second, within, rfl⟩
    rw [first, second, Option.bind_eq_bind, Option.bind_some, Option.bind_some, if_pos within]

/-- A round writes nothing exactly at the indices that one of the arrays lacks. -/
theorem subtractAt?_eq_none_iff :
    subtractAt? left right current index = none ↔ reach current left right ≤ index := by
  rw [← not_lt, lt_reach_iff, ← Option.not_isSome_iff_eq_none, not_iff_not,
    Option.isSome_iff_exists]
  simp only [subtractAt?_eq_some_iff, Operand.read?_eq_getElem?]
  constructor
  · rintro ⟨_, minuend, subtrahend, first, second, within, -⟩
    exact ⟨within, (Array.getElem?_eq_some_iff.mp first).1,
      (Array.getElem?_eq_some_iff.mp second).1⟩
  · rintro ⟨within, first, second⟩
    exact ⟨_, _, _, Array.getElem?_eq_getElem first, Array.getElem?_eq_getElem second, within, rfl⟩

/-! ## The run -/

/-- The first `count` entries are the wrapped differences of what the operands held before, and the
others are as before. -/
structure Overwrites (before : Array ℤ) (left right : Operand) (count : ℕ) (after : Array ℤ) :
    Prop where
  size : after.size = before.size
  written : ∀ index < count, ∃ minuend subtrahend,
    (left.entries before)[index]? = some minuend ∧
    (right.entries before)[index]? = some subtrahend ∧
    after[index]? = some (wrapWord (minuend - subtrahend))
  kept : ∀ index ≥ count, after[index]? = before[index]?

namespace Overwrites

theorem refl (before : Array ℤ) (left right : Operand) : Overwrites before left right 0 before where
  size := rfl
  written index below := absurd below (Nat.not_lt_zero index)
  kept _ _ := rfl

/-- An operand still has its old entry at the index that is next. -/
theorem read? (state : Overwrites before left right index current) (operand : Operand) :
    operand.read? current index = (operand.entries before)[index]? := by
  cases operand with
  | target => exact state.kept index le_rfl
  | separate entries => rfl

theorem succ (state : Overwrites before left right index current)
    (step : subtractAt? left right current index = some next) :
    Overwrites before left right (index + 1) next := by
  obtain ⟨minuend, subtrahend, first, second, within, rfl⟩ := subtractAt?_eq_some_iff.mp step
  rw [state.read?] at first second
  refine ⟨?size, ?written, ?kept⟩
  case size => rw [Array.size_setIfInBounds, state.size]
  case written =>
    intro earlier below
    obtain rfl | below := Nat.eq_or_lt_of_le (Nat.le_of_lt_succ below)
    · exact ⟨minuend, subtrahend, first, second, Array.getElem?_setIfInBounds_self_of_lt within⟩
    · rw [Array.getElem?_setIfInBounds_ne below.ne']
      exact state.written earlier below
  case kept =>
    intro later above
    rw [Array.getElem?_setIfInBounds_ne (by omega)]
    exact state.kept later (by omega)

end Overwrites

/-- From any index on, the run writes what is left of its count and of the arrays. -/
theorem subtractFrom_overwrites (remaining : ℕ)
    (state : Overwrites before left right index current) (le : index ≤ reach before left right) :
    Overwrites before left right (min (index + remaining) (reach before left right))
        (subtractFrom left right remaining index current).target ∧
      ((subtractFrom left right remaining index current).complete = true ↔
        index + remaining ≤ reach before left right) := by
  have reach_eq : reach current left right = reach before left right :=
    reach_congr state.size left right
  induction remaining generalizing index current with
  | zero =>
    rw [subtractFrom, Nat.add_zero, min_eq_left le]
    exact ⟨state, iff_of_true rfl le⟩
  | succ remaining ih =>
    rw [subtractFrom]
    cases step : subtractAt? left right current index with
    | none =>
      have last : index = reach before left right :=
        le.antisymm (reach_eq ▸ subtractAt?_eq_none_iff.mp step)
      rw [← last, min_eq_right (by omega)]
      exact ⟨state, iff_of_false Bool.false_ne_true (by omega)⟩
    | some written =>
      have further : index < reach before left right := by
        rw [← reach_eq, ← not_le, ← subtractAt?_eq_none_iff, step]
        exact Option.some_ne_none written
      have state' := state.succ step
      rw [← Nat.add_assoc, Nat.add_right_comm]
      exact ih state' further (reach_congr state'.size left right)

/-- The entries below the count that all three arrays have become the differences of the old
entries, whatever the operands share with the target, and the others are kept. The run falls short
exactly if it was to write more than these. -/
theorem subtractInto_overwrites (target : Array ℤ) (left right : Operand) (count : ℤ) :
    Overwrites target left right (min count.toNat (reach target left right))
        (subtractInto target left right count).target ∧
      ((subtractInto target left right count).complete = false ↔
        0 < count ∧ (min count.toNat (reach target left right) : ℕ) < count) := by
  have run := subtractFrom_overwrites count.toNat (.refl target left right) (Nat.zero_le _)
  rw [Nat.zero_add] at run
  refine ⟨run.1, ?_⟩
  rw [← Bool.not_eq_true, subtractInto, run.2]
  omega

example : subtractInto #[5, 3, 9] .target (.separate #[1, 1]) 3 = ⟨#[4, 2, 9], false⟩ ∧
    subtractInto #[5, 3, 9] .target .target 2 = ⟨#[0, 0, 9], true⟩ := by
  decide

end FlightMath
