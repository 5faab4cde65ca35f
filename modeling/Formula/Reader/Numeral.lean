import Formula.Expr
import Formula.Token

/-!
  **Numerals.**

  A numeral is a run of digits, with a point and more digits after it or without.  One without a
  point is exact as long as it fits 64 bits with sign, and a floating-point number beyond that.
-/

namespace Formula.Reader

/-- The digits at the front of the tokens, as characters. -/
def digitsOf (tokens : List Token) : List Char :=
  (tokens.takeWhile Token.isDigit).flatMap Token.toList

/-- The number that decimal digits stand for. -/
def digitsValue (digits : List Char) : Nat :=
  digits.foldl (fun value c => 10 * value + (c.toNat - '0'.toNat)) 0

/-- The largest exact number. -/
def largestInteger : Nat := 9223372036854775807

/-- The number of a run of digits. -/
def wholeNumber (digits : List Char) : Number :=
  let value := digitsValue digits
  if value ≤ largestInteger then .integer value else .float (Float.ofScientific value false 0)

/-- The number with the given digits before and after the point. -/
def pointNumber (whole fraction : List Char) : Number :=
  .float (Float.ofScientific (digitsValue (whole ++ fraction)) true fraction.length)

/-- Read a numeral; the place is before its first digit. -/
def numeral (rest : List Token) : Number × List Token :=
  let whole := digitsOf rest
  let after := rest.dropWhile Token.isDigit
  match after with
  | .char '.' :: more =>
    if more.head?.any Token.isDigit then
      (pointNumber whole (digitsOf more), more.dropWhile Token.isDigit)
    else (wholeNumber whole, after)
  | _ => (wholeNumber whole, after)

end Formula.Reader
