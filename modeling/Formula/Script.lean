import Formula.Domain.Literal
import Formula.Expr
import Formula.Token

/-!
  **What a custom notation does.**

  Most notations are read by a rule of their kind.  A custom one brings a script: a program of
  requests to the reader, each with what to do next for every answer.  The reader carries it out
  from just past the trigger of the notation.  A script ends with the expression that was read, or
  with none, which rejects the notation.  It can save the place it has come to and return to a
  place that it saved, so it never gets in front of its own trigger.

  Left out are three things that a script could ask for: the number of its place among the tokens,
  the engine as a whole, and a call as it is, without normal form.
-/

namespace Formula

/-- Where the expression being read must stop. -/
structure Terminator where
  /-- Operators that bind less tightly than this end the expression. -/
  minPrec : Nat := 0
  /-- The trigger that closes what the expression stands in, if there is one. -/
  close : Option (List Token) := none
deriving DecidableEq, Repr

/-- The same end with another bound on operators. -/
def Terminator.withMinPrec (stop : Terminator) (minPrec : Nat) : Terminator :=
  { stop with minPrec }

/-- A program of requests to the reader. -/
inductive Script (α : Type) where
  /-- The end: what was read, or a rejection. -/
  | done (result : Option (Tree α))
  | expression (stop : Terminator) (next : Option (Tree α) → Script α)
  | tabular (next : Tree α → Script α)
  | root (next : Tree α → Script α)
  | skipSpace (next : Script α)
  | peek (next : Option Token → Script α)
  /-- Save this place; places are numbered from zero. -/
  | checkpoint (next : Script α)
  /-- Return to a saved place. -/
  | rewind (place : Nat) (next : Script α)
  | build (head : String) (ops : List (Tree α)) (next : Tree α → Script α)
  | domain (e : Tree α) (next : Literal → Script α)
  | compatible (e : Tree α) (l : Literal) (next : Bool → Script α)

/-- The script of a custom notation, from the expression on its left, if there is one, and the
    place where the whole must stop. -/
abbrev Handler (α : Type) := Option (Tree α) → Terminator → Script α

end Formula
