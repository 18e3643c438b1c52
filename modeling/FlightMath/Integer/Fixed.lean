import FlightMath.Integer.Truncated
import FlightMath.Integer.Width

/-! # Fixed-point factors with twelve fractional bits

A factor is an integer count of 4096ths. Building one rounds toward zero and wraps to a word;
applying one rounds toward minus infinity, as an arithmetic shift does, and wraps to a short
integer.
-/

namespace FlightMath

/-- A factor, counted in 4096ths. -/
structure Q12 where
  raw : Int
deriving DecidableEq, Repr, Inhabited

namespace Q12

/-- The number of fractional bits. -/
def fractionBits : Nat := 12

/-- The factor one. -/
def one : Q12 := ⟨2 ^ fractionBits⟩

/-- The factor `num / den`, or nothing for a zero denominator. -/
def ofRatio? (num den : Int) : Option Q12 :=
  (quotient? (num * 2 ^ fractionBits) den).map fun quotient => ⟨wrapWord quotient⟩

/-- A short integer times the factor. -/
def scale (factor : Q12) (value : Int) : Int :=
  wrapShort (value * factor.raw / 2 ^ fractionBits)

/-- The factor in whole hundredths. -/
def percent (factor : Q12) : Int :=
  factor.scale 100

@[simp] theorem ofRatio?_zero (num : Int) : ofRatio? num 0 = none := rfl

theorem ofRatio?_of_ne_zero {den : Int} (num : Int) (nonzero : den ≠ 0) :
    ofRatio? num den = some ⟨wrapWord ((num * 2 ^ fractionBits).tdiv den)⟩ := by
  rw [ofRatio?, quotient?_of_ne_zero _ nonzero, Option.map_some]

end Q12

end FlightMath
