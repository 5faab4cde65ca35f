import Formula.Proofs.Latex.Operators
import Formula.Proofs.Standard.Operators
import Mathlib.Data.Nat.Digits.Defs

/-!
  **Whole numerals are exact or a floating-point number, and never wrap.**

  A run of digits may be of any length.  The reader multiplies by ten and adds the next digit, from
  the first digit on; the value of the run is the sum over its places, from the last digit on.  It
  is compared with the largest exact number as a whole, so zeros in front change nothing, and no
  digit is lost.  What stands in front of the run has no part in it.  Behind the run one token more
  is looked at: a point ends the numeral too, as long as no digit stands behind it.
-/

namespace Formula.Reader

open Latex

/-- The number of a digit. -/
def digitValue (c : Char) : Nat := c.toNat - '0'.toNat

/-- The value of a run of digits by places, the last digit being the lowest. -/
def decimalValue (digits : List Char) : Nat := Nat.ofDigits 10 (digits.reverse.map digitValue)

theorem digitsValue_eq_decimalValue (digits : List Char) :
    digitsValue digits = decimalValue digits := by
  rw [digitsValue, decimalValue, Nat.ofDigits_eq_foldr, List.foldr_map, List.foldr_reverse]
  congr 1
  funext value c
  exact Nat.add_comm _ _

theorem wholeNumber_of_lt {digits : List Char} (h : decimalValue digits < 2 ^ 63) :
    wholeNumber digits = .integer (decimalValue digits) := by
  have hfits : decimalValue digits ≤ largestInteger := Nat.le_of_lt_succ h
  rw [wholeNumber, digitsValue_eq_decimalValue]
  exact if_pos hfits

theorem wholeNumber_of_le {digits : List Char} (h : 2 ^ 63 ≤ decimalValue digits) :
    wholeNumber digits = .float (Float.ofScientific (decimalValue digits) false 0) := by
  have hexceeds : ¬ decimalValue digits ≤ largestInteger := Nat.not_le.mpr h
  rw [wholeNumber, digitsValue_eq_decimalValue]
  exact if_neg hexceeds

/-- **Whole numerals are exact.**  A run of digits, of any length and with zeros in front or not, is
    read up to its end where the numeral does not go on.  Its number is its decimal value if that
    is below `2 ^ 63`, and a floating-point number otherwise.  The text of a number from zero up to
    there is read back as that number. -/
theorem numeral_exact :
    (∀ digits rest, digits ≠ [] → (∀ c ∈ digits, c.isDigit = true) → EndsNumeral rest →
      ∃ value,
        (decimalValue digits < 2 ^ 63 → value = .integer (decimalValue digits)) ∧
        (2 ^ 63 ≤ decimalValue digits →
          value = .float (Float.ofScientific (decimalValue digits) false 0)) ∧
        numeral (digits.map .char ++ rest) = (value, rest) ∧
        ∀ stop, Proper Engine.standard stop →
          primary Engine.standard Engine.standard.host
              (expression Engine.standard Engine.standard.host) stop
              (digits.map .char ++ rest) =
            pure (some (.number value), rest)) ∧
    ∀ n : Nat, n < 2 ^ 63 →
      Engine.standard.parse (Engine.standard.latex (.number (.integer n) : Expr)) =
        .number (.integer n) := by
  refine ⟨?_, ?_⟩
  · intro digits rest hne hdigits hends
    refine ⟨wholeNumber digits, wholeNumber_of_lt, wholeNumber_of_le,
      numeral_digits hdigits hends, ?_⟩
    intro stop hstop
    exact primary_run hne hdigits (fun _ => Engine.free_digit_standard) hstop hends
  · intro n hn
    exact (readAs_integer_standard (Nat.le_of_lt_succ hn)).parse_eq Engine.accepted_standard

/-- In `007.x` the numeral ends in front of the point and is `7`; `9223372036854775808` is a
    floating-point number, and the number below it is read back. -/
theorem numeral_exact_bounds :
    numeral ("007".toList.map .char ++ [.char '.', .char 'x']) =
      (.integer 7, [.char '.', .char 'x']) ∧
    numeral ("9223372036854775808".toList.map .char ++ []) =
      (.float (Float.ofScientific 9223372036854775808 false 0), []) ∧
    Engine.standard.parse (Engine.standard.latex (.number (.integer 9223372036854775807) : Expr)) =
      .number (.integer 9223372036854775807) := by
  refine ⟨?_, ?_, numeral_exact.2 9223372036854775807 (by decide)⟩
  · have hvalue : decimalValue "007".toList = 7 := by decide
    obtain ⟨value, hexact, -, hread, -⟩ := numeral_exact.1 "007".toList [.char '.', .char 'x']
      (by decide) (List.all_eq_true.mp (by decide)) ⟨rfl, by rintro more ⟨rfl⟩; rfl⟩
    rw [hread, hexact (by rw [hvalue]; decide), hvalue]
    rfl
  · have hvalue : decimalValue "9223372036854775808".toList = 9223372036854775808 := by decide
    obtain ⟨value, -, hfloat, hread, -⟩ := numeral_exact.1 "9223372036854775808".toList []
      (by decide) (List.all_eq_true.mp (by decide)) ⟨rfl, by rintro more ⟨⟩⟩
    rw [hread, hfloat (by rw [hvalue]; decide), hvalue]

end Formula.Reader
