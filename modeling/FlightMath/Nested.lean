import FlightMath.Binary.Conversion

/-! # Nested arrays of numbers

Vectors and quaternions are also read from arrays of any nesting. The shape of an array lists one
length for each level of nesting, and an array has one only if all its parts on a level are arrays
of the same length, down to a level of nothing but numbers. A flat array of the right length is
accepted, and every other array is refused: for its shape if it has one, and otherwise for the part
that has none.
-/

namespace FlightMath

/-- A number, or an array of nested arrays. -/
inductive Nested where
  | number (value : Double)
  | array (entries : List Nested)

/-- Why an array is refused. -/
inductive ShapeError where
  /-- The shape is not that of a vector. -/
  | notVector
  /-- The shape is not that of a quaternion. -/
  | notQuaternion
  /-- The parts agree in length on these levels and not on the next. -/
  | ragged (lengths : List Nat)
  /-- The parts agree on as many levels as an array may have, and there are more. -/
  | tooDeep
deriving DecidableEq, Repr

/-- The greatest number of levels of an array. -/
def maxLevels : Nat := 64

/-- The lengths between parentheses, with a comma after a single one. -/
def lengthsText : List Nat → String
  | [length] => "(" ++ toString length ++ ",)"
  | lengths => "(" ++ ", ".intercalate (lengths.map toString) ++ ")"

/-- The text that reports the error. -/
def ShapeError.message : ShapeError → String
  | .notVector => "v must be shape (3,)"
  | .notQuaternion => "wxyz must be shape (4,)"
  | .ragged lengths =>
      "setting an array element with a sequence. The requested array has an inhomogeneous shape " ++
        "after " ++ toString lengths.length ++ " dimensions. The detected shape was " ++
        lengthsText lengths ++ " + inhomogeneous part."
  | .tooDeep =>
      "setting an array element with a sequence. The requested array would exceed the maximum " ++
        "number of dimension of " ++ toString maxLevels ++ "."

namespace Nested

/-- The number that is not inside an array. -/
def number? : Nested → Option Double
  | .number value => some value
  | .array _ => none

/-- The entries of an array. -/
def entries? : Nested → Option (List Nested)
  | .number _ => none
  | .array entries => some entries

/-- The entries of all parts of a level, if they are arrays of one length, and that length. -/
def nextLevel? (level : List Nested) : Option (Nat × List Nested) :=
  match level.mapM entries? with
  | some (first :: rest) =>
      if rest.all fun entries => entries.length == first.length then
        some (first.length, (first :: rest).flatten)
      else none
  | _ => none

/-- The lengths of at most so many levels, and the parts on the level where they end. -/
def levels : (bound : Nat) → List Nested → List Nat × List Nested
  | 0, level => ([], level)
  | bound + 1, level =>
      match nextLevel? level with
      | none => ([], level)
      | some (length, next) =>
          let (lengths, rest) := levels bound next
          (length :: lengths, rest)

/-- The length of each level of an array. -/
def shape (array : Nested) : Except ShapeError (List Nat) :=
  let (lengths, rest) := levels maxLevels [array]
  if rest.all fun part => part.number?.isSome then .ok lengths
  else if lengths.length = maxLevels then .error .tooDeep
  else .error (.ragged lengths)

/-- The numbers of a flat array. -/
def flat? : Nested → Option (List Double)
  | .number _ => none
  | .array entries => entries.mapM number?

/-- The numbers of an array, or the reason why it is not a flat one. -/
def numbers (array : Nested) (otherShape : ShapeError) : Except ShapeError (List Double) :=
  match array.shape with
  | .error cause => .error cause
  | .ok _ =>
      match array.flat? with
      | some values => .ok values
      | none => .error otherShape

/-- A flat array of numbers. -/
def ofList (values : List Double) : Nested :=
  .array (values.map .number)

@[simp] theorem flat?_ofList (values : List Double) : (ofList values).flat? = some values := by
  simp only [ofList, flat?]
  induction values with
  | nil => rfl
  | cons value rest ih => simp [number?, ih]

/-- Numbers have no next level. -/
theorem nextLevel?_numbers (values : List Double) :
    nextLevel? (values.map Nested.number) = none := by
  cases values with
  | nil => rfl
  | cons value rest => simp [nextLevel?, entries?]

private theorem levels_numbers (bound : Nat) (values : List Double) :
    levels bound (values.map .number) = ([], values.map .number) := by
  cases bound with
  | zero => rfl
  | succ bound => rw [levels, nextLevel?_numbers]

private theorem levels_ofList (bound : Nat) (values : List Double) :
    levels (bound + 1) [ofList values] = ([values.length], values.map .number) := by
  have next : nextLevel? [ofList values] = some (values.length, values.map .number) := by
    simp [nextLevel?, ofList, entries?]
  rw [levels, next]
  simp only [levels_numbers]

/-- The shape of a flat array is its length. -/
theorem shape_ofList (values : List Double) : (ofList values).shape = .ok [values.length] := by
  have bound : maxLevels = 63 + 1 := rfl
  have numeric : ((values.map Nested.number).all fun part => part.number?.isSome) = true := by
    simp [number?]
  rw [shape, bound, levels_ofList]
  exact if_pos numeric

/-- A flat array is read as its numbers. -/
@[simp] theorem numbers_ofList (values : List Double) (otherShape : ShapeError) :
    (ofList values).numbers otherShape = .ok values := by
  simp only [numbers, shape_ofList, flat?_ofList]

end Nested

end FlightMath
