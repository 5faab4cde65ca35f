import Formula.Domain
import Formula.Expr.MathJson

/-!
  **Domains as expressions.**

  A named domain is written as a symbol and may be read from a string as well.  A constructed one
  is a call: `["Maybe", "Integers"]`.
-/

namespace Formula

/-- What the arguments of a domain constructor lack. -/
inductive DomainDefect where
  | notOneArgument
  | notAName
  | noResult
deriving DecidableEq, Repr

/-- Why an expression is not a domain. -/
inductive DomainError where
  | unknownLiteral (name : String)
  | unknownConstructor (name : String)
  | malformed (c : DomainConstructor) (defect : DomainDefect)
deriving DecidableEq, Repr

namespace DomainDefect

/-- What would have been right. -/
def expectation : DomainDefect → String
  | .notOneArgument => "expected exactly one argument"
  | .notAName => "expected a name"
  | .noResult => "expected a result domain"

end DomainDefect

namespace DomainError

def code : DomainError → String
  | .unknownLiteral _ => "unknown-domain-literal"
  | .unknownConstructor _ => "unknown-domain-constructor"
  | .malformed _ _ => "malformed-domain"

def message : DomainError → String
  | .unknownLiteral name => "unknown-domain-literal: `" ++ name ++ "`"
  | .unknownConstructor name => "unknown domain constructor `" ++ name ++ "`"
  | .malformed c defect => "malformed `" ++ c.name ++ "` domain: " ++ defect.expectation

end DomainError

def Literal.ofName (name : String) : Except DomainError Literal :=
  match Literal.ofName? name with
  | some l => .ok l
  | none => .error (.unknownLiteral name)

def DomainConstructor.ofName (name : String) : Except DomainError DomainConstructor :=
  match DomainConstructor.ofName? name with
  | some c => .ok c
  | none => .error (.unknownConstructor name)

namespace Domain

variable {α : Type}

/-- The only operand of a call of a domain constructor. -/
def single (c : DomainConstructor) : List (Tree α) → Except DomainError (Tree α)
  | [only] => .ok only
  | _ => .error (.malformed c .notOneArgument)

/-- The name that is the only operand of a call of a domain constructor, a symbol or a string. -/
def singleName (c : DomainConstructor) : List (Tree α) → Except DomainError String
  | [.symbol name] => .ok name
  | [.text name] => .ok name
  | [_] => .error (.malformed c .notAName)
  | _ => .error (.malformed c .notOneArgument)

mutual

/-- Read a domain from an expression. -/
def ofTree : Tree α → Except DomainError Domain
  | .symbol name => (Literal.ofName name).map .literal
  | .text name => (Literal.ofName name).map .literal
  | .call _ constructor ops =>
    match DomainConstructor.ofName constructor with
    | .error e => .error e
    | .ok .functions =>
      match ops with
      | [] => .error (.malformed .functions .noResult)
      | _ :: _ => (ofTrees ops).map .functions
    | .ok .tuple => (ofTrees ops).map .tuple
    | .ok .union => (ofTrees ops).map .union
    | .ok .intersection => (ofTrees ops).map .intersection
    | .ok .list => (ofSingle .list ops).map .list
    | .ok .maybe => (ofSingle .maybe ops).map .maybe
    | .ok .sequence => (ofSingle .sequence ops).map .sequence
    | .ok .dictionary => (ofSingle .dictionary ops).map .dictionary
    | .ok .head => (singleName .head ops).map .head
    | .ok .symbol => (singleName .symbol ops).map .symbol
    | .ok .value => (single .value ops).map fun e => .value e.erase
  | e => .error (.unknownLiteral e.mathJson)

/-- Read domains from left to right, up to the first that is none. -/
def ofTrees : List (Tree α) → Except DomainError (List Domain)
  | [] => .ok []
  | op :: rest => do
    let d ← ofTree op
    let ds ← ofTrees rest
    pure (d :: ds)

def ofSingle (c : DomainConstructor) : List (Tree α) → Except DomainError Domain
  | [] => .error (.malformed c .notOneArgument)
  | only :: rest =>
    match rest with
    | [] => ofTree only
    | _ :: _ => .error (.malformed c .notOneArgument)

end

mutual

def toExpr : Domain → Expr
  | .literal l => .symbol l.name
  | .functions ds => .call () "Functions" (toExprs ds)
  | .list d => .call () "List" [d.toExpr]
  | .tuple ds => .call () "Tuple" (toExprs ds)
  | .maybe d => .call () "Maybe" [d.toExpr]
  | .sequence d => .call () "Sequence" [d.toExpr]
  | .union ds => .call () "Union" (toExprs ds)
  | .intersection ds => .call () "Intersection" (toExprs ds)
  | .head name => .call () "Head" [.symbol name]
  | .symbol name => .call () "Symbol" [.symbol name]
  | .value e => .call () "Value" [e]
  | .dictionary d => .call () "Dictionary" [d.toExpr]

def toExprs : List Domain → List Expr
  | [] => []
  | d :: ds => d.toExpr :: toExprs ds

end

/-- The text of a domain: its bare name, or the text of its expression. -/
def text : Domain → String
  | .literal l => l.name
  | d => d.toExpr.mathJson

end Domain

end Formula
