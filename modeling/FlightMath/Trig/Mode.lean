import FlightMath.Binary.Conversion

/-! # Approximation modes

A mode selects the odd polynomial that stands for the sine on a quarter turn either side of zero.
The fast polynomial stops at the seventh power.
-/

namespace FlightMath

/-- The sine polynomial in use. -/
inductive ApproxMode where
  | fast
  | accurate
deriving DecidableEq, Repr

/-- The coefficients of the third to ninth powers. -/
structure SineCoefficients where
  cubic : Single
  quintic : Single
  septic : Single
  nonic : Single
deriving DecidableEq, Repr

namespace ApproxMode

instance : Inhabited ApproxMode :=
  ⟨.accurate⟩

/-- The mode in use when none is chosen. -/
def standard : ApproxMode := .accurate

/-- Both modes, in the order in which texts list them. -/
def all : List ApproxMode := [.fast, .accurate]

/-- The word that selects the mode in a configuration. -/
def word : ApproxMode → String
  | .fast => "fast"
  | .accurate => "accurate"

/-- The symbol that stands for the mode itself, as opposed to its word. -/
def symbol : ApproxMode → String
  | .fast => "FAST"
  | .accurate => "ACCURATE"

/-- The mode that a word selects. -/
def ofWord? (text : String) : Option ApproxMode :=
  all.find? fun mode => mode.word == text

/-- The mode that a symbol stands for. -/
def ofSymbol? (text : String) : Option ApproxMode :=
  all.find? fun mode => mode.symbol == text

/-- The coefficients that a mode selects. -/
def sine : ApproxMode → SineCoefficients
  | .fast => ⟨-1.666568107e-1, 8.312366210e-3, -1.849218155e-4, 0⟩
  | .accurate => ⟨-1.666665710e-1, 8.333017292e-3, -1.980661520e-4, 2.600054768e-6⟩

theorem ofWord?_eq_some_iff (text : String) (mode : ApproxMode) :
    ofWord? text = some mode ↔ text = mode.word := by
  constructor
  · intro found
    have same := List.find?_some found
    exact (beq_iff_eq.mp same).symm
  · rintro rfl
    cases mode <;> rfl

end ApproxMode

end FlightMath
