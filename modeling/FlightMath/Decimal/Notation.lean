import FlightMath.Decimal.Shortest

/-! # Decimal notation

A decimal is written by its significant digits and the exponent of the first of them. A style says
for which exponents the point is put in place and how an exponent is written otherwise.
-/

namespace FlightMath

/-- The choices of a decimal notation. -/
structure DecimalStyle where
  /-- The least exponent of a number written with its point in place. -/
  leastPositional : Int
  /-- The greatest exponent of a number written with its point in place. -/
  greatestPositional : Int
  /-- The least number of digits of a written exponent. -/
  exponentDigits : Nat

namespace Decimal

/-- The digits without the zeros at their end. -/
def significant (decimal : Decimal) : List Char :=
  ((Nat.toDigits 10 decimal.digits).reverse.dropWhile (· == '0')).reverse

/-- The exponent of the first digit. -/
def leading (decimal : Decimal) : Int :=
  (Nat.toDigits 10 decimal.digits).length - 1 + decimal.exponent

end Decimal

/-- A digit string with its point in place, and at least one digit either side of it. -/
def positional (digits : List Char) (leading : Int) : List Char :=
  if leading < 0 then
    ['0', '.'] ++ List.replicate (leading.natAbs - 1) '0' ++ digits
  else
    let whole := leading.toNat + 1
    let fraction := digits.drop whole
    digits.take whole ++ List.replicate (whole - digits.length) '0' ++ ['.'] ++
      if fraction.isEmpty then ['0'] else fraction

/-- A digit string with its point after the first digit, followed by a signed exponent. -/
def scientific (style : DecimalStyle) (digits : List Char) (leading : Int) : List Char :=
  let exponent := Nat.toDigits 10 leading.natAbs
  let fraction := digits.drop 1
  digits.take 1 ++ (if fraction.isEmpty then [] else '.' :: fraction) ++
    ['e', if leading < 0 then '-' else '+'] ++
    List.replicate (style.exponentDigits - exponent.length) '0' ++ exponent

namespace DecimalStyle

/-- The text of a decimal. -/
def write (style : DecimalStyle) (decimal : Decimal) : List Char :=
  if style.leastPositional ≤ decimal.leading ∧ decimal.leading ≤ style.greatestPositional then
    positional decimal.significant decimal.leading
  else scientific style decimal.significant decimal.leading

/-- The text of a floating-point value by its shortest decimal. -/
def writeBinary {F : FloatFormat} (style : DecimalStyle) : Binary F → String
  | .nan => "nan"
  | .infinite negative => if negative then "-inf" else "inf"
  | .finite negative units _ =>
      let magnitude := if units = 0 then positional ['0'] 0 else style.write (F.shortest units)
      String.ofList (if negative then '-' :: magnitude else magnitude)

end DecimalStyle

end FlightMath
