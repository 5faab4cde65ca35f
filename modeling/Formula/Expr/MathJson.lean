import Formula.Expr
import Formula.Decimal.Layout

/-!
  **The MathJSON text of an expression.**

  Compact JSON: a symbol is a string, a string stands in single quotes inside a JSON string, a call
  is an array of its head and its operands.  Only what JSON requires is escaped.
-/

namespace Formula

namespace MathJson

/-- Floating-point numbers are written in full from `0.00001` to below `10 ^ 16`, with at least
    one digit after the point, and otherwise with a power of ten.  A half goes to the even digit. -/
def decimals : Decimal.Layout where
  tie := .toEven
  positional point := -5 < point && point ≤ 16
  marksWhole := true

/-- The two lower-case hexadecimal digits of a number below 256. -/
def hexPair (n : Nat) : List Char := [Nat.digitChar (n / 16), Nat.digitChar (n % 16)]

/-- A character inside a JSON string. -/
def escape (c : Char) : List Char :=
  if c = '"' then ['\\', '"']
  else if c = '\\' then ['\\', '\\']
  else if c = '\n' then ['\\', 'n']
  else if c = '\r' then ['\\', 'r']
  else if c = '\t' then ['\\', 't']
  else if c.toNat = 8 then ['\\', 'b']
  else if c.toNat = 12 then ['\\', 'f']
  else if c.toNat < 32 then ['\\', 'u', '0', '0'] ++ hexPair c.toNat
  else [c]

def quote (text : List Char) : List Char := '"' :: text.flatMap escape ++ ['"']

def ofInt (value : Int) : List Char :=
  if value < 0 then '-' :: Nat.toDigits 10 value.natAbs else Nat.toDigits 10 value.natAbs

/-- A number.  Those that JSON has no number for are strings. -/
def ofNumber : Number → List Char
  | .integer value => ofInt value
  | .float value =>
    if value.isNaN then quote "NaN".toList
    else if value.isInf then quote (if value > 0 then "+Infinity".toList else "-Infinity".toList)
    else (decimals.ofFloat value).toList

end MathJson

namespace Tree

variable {α : Type}

mutual

def mathJsonChars : Tree α → List Char
  | .number value => MathJson.ofNumber value
  | .symbol name => MathJson.quote name.toList
  | .text value => MathJson.quote ('\'' :: value.toList ++ ['\''])
  | .call _ head ops => '[' :: MathJson.quote head.toList ++ mathJsonOperands ops
  | .applied _ head ops => '[' :: head.mathJsonChars ++ mathJsonOperands ops

/-- The operands of a call, each after a comma, and the bracket that closes the call. -/
def mathJsonOperands : List (Tree α) → List Char
  | [] => [']']
  | op :: rest => ',' :: op.mathJsonChars ++ mathJsonOperands rest

end

def mathJson (e : Tree α) : String := String.ofList e.mathJsonChars

end Tree

end Formula
