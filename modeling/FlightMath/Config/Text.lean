import FlightMath.Config.Value
import FlightMath.Decimal.Notation
import FlightMath.Text.Quoted

/-! # The text of configuration values

Error texts show values as they were given. A text by itself is shown bare; inside a list or a
table, and in a list of keys, it is quoted.
-/

namespace FlightMath

namespace Value

/-- Numbers from a ten-thousandth up to below ten quadrillion have their point in place. -/
def realStyle : DecimalStyle where
  leastPositional := -4
  greatestPositional := 15
  exponentDigits := 2

mutual

/-- The literal of a value, as it stands inside another. -/
def literal : Value → String
  | .null => "None"
  | .bool value => if value then "True" else "False"
  | .int value => toString value
  | .real value => realStyle.writeBinary value
  | .text value => quoted value
  | .mode value => "<ApproxMode." ++ value.symbol ++ ": " ++ quoted value.word ++ ">"
  | .list entries => "[" ++ ", ".intercalate (literalEntries entries) ++ "]"
  | .table entries => "\x7b" ++ ", ".intercalate (literalFields entries) ++ "\x7d"

/-- The literals of the entries of a list. -/
def literalEntries : List Value → List String
  | [] => []
  | entry :: rest => entry.literal :: literalEntries rest

/-- The keys and literals of the entries of a table. -/
def literalFields : List (String × Value) → List String
  | [] => []
  | (key, value) :: rest => (quoted key ++ ": " ++ value.literal) :: literalFields rest

end

/-- The text of a value by itself. -/
def display : Value → String
  | .text value => value
  | .mode value => "ApproxMode." ++ value.symbol
  | value => value.literal

end Value

end FlightMath
