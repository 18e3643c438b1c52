import FlightMath.Text.Printable

/-! # Quoted text

A text is quoted by apostrophes, or by double quotes if it has an apostrophe and no double quote.
The quote in use and the backslash are written after a backslash, as are the letters for a line
feed, a carriage return and a tab. Any other character that is not printable is written by its code
point in two, four or eight hexadecimal digits, the fewest that hold it.
-/

namespace FlightMath

/-- The character that encloses a text. -/
def quoteOf (text : List Char) : Char :=
  if text.contains '\'' && !text.contains '"' then '"' else '\''

/-- A number in at least so many hexadecimal digits. -/
def hexadecimal (width number : Nat) : List Char :=
  let digits := Nat.toDigits 16 number
  List.replicate (width - digits.length) '0' ++ digits

/-- A character by its code point, after the letter that tells the number of digits. -/
def escapeCode (character : Char) : List Char :=
  let code := character.toNat
  if code < 0x100 then '\\' :: 'x' :: hexadecimal 2 code
  else if code < 0x10000 then '\\' :: 'u' :: hexadecimal 4 code
  else '\\' :: 'U' :: hexadecimal 8 code

/-- One character of a text between the given quotes. -/
def escape (quote character : Char) : List Char :=
  if character = quote ∨ character = '\\' then ['\\', character]
  else if character = '\n' then ['\\', 'n']
  else if character = '\r' then ['\\', 'r']
  else if character = '\t' then ['\\', 't']
  else if isPrintable character then [character]
  else escapeCode character

/-- The text between its quotes. -/
def quoted (text : String) : String :=
  let characters := text.toList
  let quote := quoteOf characters
  String.ofList (quote :: characters.flatMap (escape quote) ++ [quote])

end FlightMath
