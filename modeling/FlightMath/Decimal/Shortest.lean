import FlightMath.Binary.Basic

/-! # Shortest decimals

One unit is a power of two, so a magnitude is also a whole number of decimal units, each ten to
the minus `unitExponent`: its unit count times a power of five. The search for a short decimal
takes place on those whole numbers. It tries one digit, then two, and so on, and at each length
only the two neighbours of the exact magnitude; the first length at which one of them reads back
as the magnitude wins, and of two such neighbours the nearer.
-/

namespace FlightMath

/-- The number `digits * 10 ^ exponent`. -/
structure Decimal where
  digits : Nat
  exponent : Int
deriving DecidableEq, Repr

namespace FloatFormat

variable (F : FloatFormat)

/-- Quarters of a unit from a magnitude down to the point where rounding turns to its lower
neighbour; below a power of two the spacing halves. -/
def roomBelow (units : Nat) : Nat :=
  if units = 2 ^ units.log2 ∧ 0 < F.shift units then 2 ^ F.shift units
  else 2 * 2 ^ F.shift units

/-- Quarters of a unit from a magnitude up to the point where rounding turns to its upper
neighbour. -/
def roomAbove (units : Nat) : Nat :=
  2 * 2 ^ F.shift units

/-- Whether a number of decimal units rounds to the magnitude; the end points of its range do if its
significand is even. -/
def readsBack (units candidate : Nat) : Bool :=
  let fives := 5 ^ F.unitExponent
  let lowest := (4 * units - F.roomBelow units) * fives
  let highest := (4 * units + F.roomAbove units) * fives
  if units / 2 ^ F.shift units % 2 = 0 then lowest ≤ 4 * candidate && 4 * candidate ≤ highest
  else lowest < 4 * candidate && 4 * candidate < highest

/-- The better neighbour of `exact` among the multiples of `10 ^ dropped`, if one reads back. -/
def neighbour? (units exact dropped : Nat) : Option Nat :=
  let step := 10 ^ dropped
  let below := exact / step
  let lowerFits := F.readsBack units (below * step)
  let upperFits := F.readsBack units ((below + 1) * step)
  if lowerFits && upperFits then some (roundHalfEven exact step)
  else if lowerFits then some below
  else if upperFits then some (below + 1)
  else none

/-- Drops as many final digits of `exact` as possible, at most `dropped`. -/
def shorten (units exact : Nat) : (dropped : Nat) → Decimal
  | 0 => ⟨exact, -F.unitExponent⟩
  | dropped + 1 =>
      match F.neighbour? units exact dropped with
      | some digits => ⟨digits, dropped - F.unitExponent⟩
      | none => shorten units exact dropped

/-- The shortest decimal that rounds to a magnitude, and the nearest of those. -/
def shortest (units : Nat) : Decimal :=
  let exact := units * 5 ^ F.unitExponent
  F.shorten units exact (Nat.toDigits 10 exact).length

end FloatFormat

end FlightMath
