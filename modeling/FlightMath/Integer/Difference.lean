import FlightMath.Integer.Width

/-! # Differences written in place

The entries of an array are overwritten from the front with the differences of two operands, and
either operand may be that array itself. Each entry is read before it is written, so a shared
array supplies its old entries. The run stops at the first index that any of the three lacks and
keeps what it has written by then.
-/

namespace FlightMath

/-- Where an operand of the subtraction is read from. -/
inductive Operand where
  /-- The array that is being written. -/
  | target
  /-- An array of its own. -/
  | separate (entries : Array Int)
deriving DecidableEq, Repr

/-- The operand's current entry. -/
def Operand.read? (operand : Operand) (target : Array Int) (index : Nat) : Option Int :=
  match operand with
  | .target => target[index]?
  | .separate entries => entries[index]?

/-- An array after a run of writes, and whether every requested entry was written. -/
structure Written where
  target : Array Int
  complete : Bool
deriving DecidableEq, Repr

/-- Writes one difference, or nothing if the target or an operand has no such entry. -/
def subtractAt? (left right : Operand) (target : Array Int) (index : Nat) : Option (Array Int) := do
  let minuend ← left.read? target index
  let subtrahend ← right.read? target index
  if index < target.size then
    some (target.setIfInBounds index (wrapWord (minuend - subtrahend)))
  else none

/-- Writes `remaining` differences from `index` on. -/
def subtractFrom (left right : Operand) : (remaining index : Nat) → Array Int → Written
  | 0, _, target => ⟨target, true⟩
  | remaining + 1, index, target =>
      match subtractAt? left right target index with
      | none => ⟨target, false⟩
      | some written => subtractFrom left right remaining (index + 1) written

/-- Writes the first `count` differences; a count below one writes nothing. -/
def subtractInto (target : Array Int) (left right : Operand) (count : Int) : Written :=
  subtractFrom left right count.toNat 0 target

@[simp] theorem subtractInto_of_nonpositive (target : Array Int) (left right : Operand)
    {count : Int} (nothing : count ≤ 0) :
    subtractInto target left right count = ⟨target, true⟩ := by
  rw [subtractInto, Int.toNat_of_nonpos nothing, subtractFrom]

end FlightMath
