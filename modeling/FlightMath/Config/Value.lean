import FlightMath.Binary.Conversion
import FlightMath.Trig.Mode

/-! # Configuration values

A configuration is read from a value of no fixed kind: a table with text keys, a list, a text, a
number, a mode or nothing at all. This module says which keys a value has and what it holds under a
key. Tables answer both questions. Lists and texts have members but hold nothing under them, and the
remaining kinds answer neither. A `KindError` tells which question a value could not answer.
-/

namespace FlightMath

/-- A value of any kind. -/
inductive Value where
  | null
  | bool (value : Bool)
  | int (value : Int)
  | real (value : Double)
  | text (value : String)
  | mode (value : ApproxMode)
  | list (entries : List Value)
  | table (entries : List (String × Value))

instance : Inhabited Value :=
  ⟨.null⟩

/-- A question that a value of the wrong kind cannot answer. -/
inductive KindError where
  /-- The value has no members. -/
  | noMembers
  /-- A list or a table was to be a key. -/
  | notKey
  /-- Keys of different kinds, or of a kind without order, were to be sorted. -/
  | unordered
  /-- The key is a member of a list or a part of a text, which hold nothing under it. -/
  | noEntry
  /-- Only a table could be read from. -/
  | notTable
deriving DecidableEq, Repr

/-- Whether a text occurs within another. -/
def occursIn (needle : List Char) : List Char → Bool
  | [] => needle.isEmpty
  | character :: rest => needle.isPrefixOf (character :: rest) || occursIn needle rest

/-- A place on the extended line: below all numbers, among them in 64-bit units, or above them. -/
inductive Place where
  | bottom
  | at (units : Int)
  | top
deriving DecidableEq, Repr

/-- Whether a place is at most another. -/
def Place.le : Place → Place → Bool
  | .bottom, _ => true
  | _, .top => true
  | .at units, .at other => units ≤ other
  | _, _ => false

namespace Value

/-- The place of a number, a truth value counting as zero or one; NaN has none. -/
def place? : Value → Option Place
  | .bool value => some (.at (value.toNat * 2 ^ FloatFormat.double.unitExponent))
  | .int value => some (.at (value * 2 ^ FloatFormat.double.unitExponent))
  | .real (.infinite negative) => some (if negative then .bottom else .top)
  | .real (.finite negative units _) => some (.at (signed negative units))
  | _ => none

/-- The values whose order as keys is that of their characters. -/
def isText : Value → Bool
  | .text _ => true
  | _ => false

/-- The values whose order as keys is that of their places. -/
def isNumber : Value → Bool
  | .bool _ => true
  | .int _ => true
  | .real _ => true
  | _ => false

/-- Lists and tables cannot be keys. -/
def canBeKey : Value → Bool
  | .list _ => false
  | .table _ => false
  | _ => true

/-- Equality of keys: numbers are equal when their places are. -/
def sameKey : Value → Value → Bool
  | .null, .null => true
  | .text value, .text other => value == other
  | .mode value, .mode other => value == other
  | value, other =>
      match value.place?, other.place? with
      | some place, some otherPlace => place == otherPlace
      | _, _ => false

/-- The first of each group of equal keys. -/
def distinct : List Value → List Value
  | [] => []
  | key :: rest => key :: (distinct rest).filter fun other => !key.sameKey other

/-- The order in which keys of one kind are listed: texts by their characters, numbers by size. -/
def keyLe : Value → Value → Bool
  | .text value, .text other => value ≤ other
  | value, other =>
      match value.place?, other.place? with
      | some place, some otherPlace => place.le otherPlace
      | _, _ => true

/-- The distinct keys of a value. -/
def keys : Value → Except KindError (List Value)
  | .table entries => .ok (distinct (entries.map fun entry => .text entry.1))
  | .list entries => if entries.all canBeKey then .ok (distinct entries) else .error .notKey
  | .text value => .ok (distinct (value.toList.map fun character => .text character.toString))
  | _ => .error .noMembers

/-- The keys in order. A single key needs none; of several, all must be texts or all numbers. -/
def sortKeys (keys : List Value) : Except KindError (List Value) :=
  if keys.length ≤ 1 || keys.all isText || keys.all isNumber then .ok (keys.mergeSort keyLe)
  else .error .unordered

/-- What a table holds under a key. -/
def field? (entries : List (String × Value)) (key : String) : Option Value :=
  (entries.find? fun entry => entry.1 == key).map Prod.snd

/-- What a value holds under a key, if the key is present. -/
def lookup (value : Value) (key : String) : Except KindError (Option Value) :=
  match value with
  | .table entries => .ok (field? entries key)
  | .list entries => if entries.any (sameKey (.text key)) then .error .noEntry else .ok none
  | .text value => if occursIn key.toList value.toList then .error .noEntry else .ok none
  | _ => .error .noMembers

end Value

end FlightMath
