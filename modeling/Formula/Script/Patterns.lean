import Formula.Script

/-!
  **Patterns of scripts.**

  Scripts for notations of one's own: one that is never accepted, one that depends on what its
  right side is, and two for the body of a notation.
-/

namespace Formula.Script

variable {α : Type}

/-- A notation that is never accepted. -/
def reject : Handler α := fun _ _ => .done none

/-- An operator that is accepted only if all that follows it is one even whole number. -/
def evenRight (head : String) : Handler α := fun lhs _ =>
  .expression {} fun
    | some (.number (.integer n)) =>
      match lhs with
      | some lhs =>
        if n % 2 = 0 then
          .build head [lhs, .number (.integer n)] fun e => .done (some e)
        else .done none
      | none => .done none
    | _ => .done none

/-- A call whose operand is the table that follows. -/
def tableBody (head : String) : Handler α := fun _ _ =>
  .tabular fun table => .build head [table] fun e => .done (some e)

/-- A call whose operand is the expression that follows, up to where the whole must stop. -/
def expressionBody (head : String) : Handler α := fun _ stop =>
  .expression stop fun
    | some body => .build head [body] fun e => .done (some e)
    | none => .done none

end Formula.Script
