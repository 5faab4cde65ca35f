/-!
  **Expressions.**

  What a formula means is a tree: numbers, symbols and strings at the leaves, calls inside.  The
  head of a call is a name or, for a call of a computed function, again a tree.

  Every call carries a label.  A label says which call it is among equal ones, so that something
  can be remembered about one call and not about its twins; it takes no part in equality.
  Where no call needs to be told from another the label is trivial, and the tree is an `Expr`.
-/

namespace Formula

/-- A numeric literal: exact, or a floating-point number.  The two are never equal. -/
inductive Number where
  | integer (value : Int)
  | float (value : Float)
deriving Repr

/-- An expression whose calls carry labels of type `α`. -/
inductive Tree (α : Type) where
  | number (value : Number)
  | symbol (name : String)
  | text (value : String)
  | call (label : α) (head : String) (ops : List (Tree α))
  /-- A call of a function that is itself given by an expression. -/
  | applied (label : α) (head : Tree α) (ops : List (Tree α))
deriving Repr

/-- An expression whose calls are not told apart. -/
abbrev Expr := Tree Unit

namespace Number

/-- Numbers are equal as numbers of their kind: NaN differs from itself and the two zeros are
    equal. -/
def same : Number → Number → Bool
  | .integer a, .integer b => a == b
  | .float a, .float b => a == b
  | _, _ => false

instance : BEq Number := ⟨same⟩

end Number

namespace Tree

variable {α : Type}

/-- The operands of a call; other expressions have none. -/
def ops : Tree α → List (Tree α)
  | .call _ _ ops => ops
  | .applied _ _ ops => ops
  | _ => []

def headName? : Tree α → Option String
  | .call _ head _ => some head
  | _ => none

def isCall : Tree α → Bool
  | .call .. => true
  | .applied .. => true
  | _ => false

def hasHead (name : String) : Tree α → Bool
  | .call _ head _ => head == name
  | _ => false

def symbolName? : Tree α → Option String
  | .symbol name => some name
  | _ => none

def textValue? : Tree α → Option String
  | .text value => some value
  | _ => none

def number? : Tree α → Option Number
  | .number value => some value
  | _ => none

def label? : Tree α → Option α
  | .call label _ _ => some label
  | .applied label _ _ => some label
  | _ => none

/-- Build a call with any head.  A bare symbol as head is the name of a function. -/
def apply (label : α) (head : Tree α) (ops : List (Tree α)) : Tree α :=
  match head with
  | .symbol name => .call label name ops
  | head => .applied label head ops

mutual

/-- An expression is valid if neither it nor anything in it is an `Error`. -/
def valid : Tree α → Bool
  | .number _ => true
  | .symbol _ => true
  | .text _ => true
  | .call _ head ops => head != "Error" && allValid ops
  | .applied _ head ops => head.valid && allValid ops

def allValid : List (Tree α) → Bool
  | [] => true
  | op :: rest => op.valid && allValid rest

end

mutual

/-- Equality of expressions, labels apart. -/
def same : Tree α → Tree α → Bool
  | .number a, .number b => a == b
  | .symbol a, .symbol b => a == b
  | .text a, .text b => a == b
  | .call _ f as, .call _ g bs => f == g && sameAll as bs
  | .applied _ f as, .applied _ g bs => same f g && sameAll as bs
  | _, _ => false

def sameAll : List (Tree α) → List (Tree α) → Bool
  | [], [] => true
  | a :: as, b :: bs => same a b && sameAll as bs
  | _, _ => false

end

instance : BEq (Tree α) := ⟨same⟩

mutual

/-- The same expression with its calls labelled by `f`. -/
def mapLabels {β : Type} (f : α → β) : Tree α → Tree β
  | .number value => .number value
  | .symbol name => .symbol name
  | .text value => .text value
  | .call label head ops => .call (f label) head (mapLabelsAll f ops)
  | .applied label head ops => .applied (f label) (mapLabels f head) (mapLabelsAll f ops)

def mapLabelsAll {β : Type} (f : α → β) : List (Tree α) → List (Tree β)
  | [] => []
  | op :: rest => mapLabels f op :: mapLabelsAll f rest

end

def erase (e : Tree α) : Expr := mapLabels (fun _ => ()) e

end Tree

end Formula
