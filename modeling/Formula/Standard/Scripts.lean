import Formula.Script

/-!
  **The scripts of the standard notations.**

  Four notations are not read by the rule of their kind: the comma, the product of sets, the
  condition on the elements of a set, and membership written the other way round.
-/

namespace Formula.Standard

variable {α : Type}

/-- The precedence of the comma. -/
def sequencePrecedence : Nat := 20

/-- The precedence of the bar before a condition. -/
def conditionPrecedence : Nat := 21

/-- The precedence of membership with the set in front. -/
def reverseElementPrecedence : Nat := 160

/-- The precedence of the product of sets. -/
def cartesianPrecedence : Nat := 390

def finish (head : String) (ops : List (Tree α)) : Script α :=
  .build head ops fun e => .done (some e)

/-- `a, b`, where nothing need follow the comma.  A comma after a sequence adds an element to it,
    also when one of its elements is an error, so all elements stand side by side. -/
def sequence : Handler α
  | none, _ => .done none
  | some lhs, stop =>
    let elements := if lhs.hasHead "Sequence" then lhs.ops else [lhs]
    .expression (stop.withMinPrec (sequencePrecedence + 1)) fun next =>
      finish "Sequence" (elements ++ next.toList)

/-- A product is a product of sets only between sets.  Otherwise the notation is rejected. -/
def cartesianProduct : Handler α
  | none, _ => .done none
  | some lhs, stop =>
    .compatible lhs .sets fun isSet =>
      if isSet then
        .expression (stop.withMinPrec cartesianPrecedence) fun
          | none => .done none
          | some rhs =>
            .compatible rhs .sets fun isSet =>
              if isSet then finish "CartesianProduct" [lhs, rhs] else .done none
      else .done none

/-- `A \ni x` is the membership of `x` in `A`. -/
def reverseElement : Handler α
  | none, _ => .done none
  | some lhs, stop =>
    .expression (stop.withMinPrec reverseElementPrecedence) fun
      | none => .done none
      | some rhs => finish "Element" [rhs, lhs]

/-- `x \mid p` is the sequence of `x` and the condition `p`. -/
def condition : Handler α
  | none, _ => .done none
  | some lhs, stop =>
    .expression (stop.withMinPrec (conditionPrecedence + 1)) fun
      | none => .done none
      | some predicate =>
        .build "Condition" [predicate] fun condition => finish "Sequence" [lhs, condition]

end Formula.Standard
