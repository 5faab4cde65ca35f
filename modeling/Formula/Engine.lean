import Formula.Dictionary
import Formula.Domain.Order
import Formula.Normalize
import Formula.Options

/-!
  **The engine.**

  An engine is what a formula is read and written with: a dictionary, the reader's options, and
  what is known about symbols and functions.  It builds normalized calls and tells the domain of
  an expression.
-/

namespace Formula

structure FunctionInfo where
  domain : Literal
  /-- Is a call inside a call the same as one call with all the operands? -/
  associative : Bool := false
deriving DecidableEq, Repr

/-- The context of a reading. -/
structure Engine (α : Type) where
  dictionary : Dictionary α
  options : Options
  symbols : List (String × Literal)
  functions : List (String × FunctionInfo)

/-- The domain of a number: by its sign for whole numbers, whether exact or not. -/
def Number.domain : Number → Literal
  | .integer n =>
    if n = 0 then .nonNegativeIntegers
    else if 0 < n then .positiveIntegers else .negativeIntegers
  | .float x =>
    if x.isNaN then .numbers
    else if x.isInf then .extendedRealNumbers
    else if x == 0 then .nonNegativeIntegers
    else if x.floor == x then if 0 < x then .positiveIntegers else .negativeIntegers
    else if 0 < x then .positiveNumbers else .negativeNumbers

namespace Engine

variable {α : Type} {m : Type → Type} [Monad m]

/-- Tell the engine the domain of a symbol.  The last word counts. -/
def declareSymbol (engine : Engine α) (name : String) (domain : Literal) : Engine α :=
  { engine with symbols := (name, domain) :: engine.symbols }

/-- Tell the engine about a function.  The last word counts. -/
def declareFunction (engine : Engine α) (name : String) (info : FunctionInfo) : Engine α :=
  { engine with functions := (name, info) :: engine.functions }

def isAssociative (engine : Engine α) (head : String) : Bool :=
  ((engine.functions.lookup head).map FunctionInfo.associative).getD false

def symbolDomain (engine : Engine α) (name : String) : Literal :=
  (engine.symbols.lookup name).getD .anything

def functionDomain (engine : Engine α) (head : String) : Literal :=
  ((engine.functions.lookup head).map FunctionInfo.domain).getD .anything

/-- The domain of an expression.  A group has the domain of its content; one without exactly one
    operand is a tuple. -/
def domain (engine : Engine α) : Tree α → Literal
  | .number n => n.domain
  | .symbol name => engine.symbolDomain name
  | .text _ => .strings
  | .call _ head ops =>
    if head = "Delimiter" then
      match ops with
      | [content] => engine.domain content
      | _ => .tuples
    else engine.functionDomain head
  | .applied .. => .anything

def isCompatible (engine : Engine α) (e : Tree α) (d : Domain) : Bool :=
  (Domain.literal (engine.domain e)).isSubdomain d

/-- A call with its operands in normal form: sequences and groups are opened, and calls of an
    associative head inside a call of the same head.  A group keeps its operands as they are. -/
def function (engine : Engine α) (fresh : m α) (head : String) (ops : List (Tree α)) :
    m (Tree α) := do
  if head = "Delimiter" then
    let label ← fresh
    pure (.call label head ops)
  else
    let flat? ← Tree.flattenSequence? fresh ops
    let ops := flat?.getD ops
    let ops := if engine.isAssociative head then (Tree.flattenOps? head ops).getD ops else ops
    let label ← fresh
    pure (.call label head ops)

end Engine

/-- What the reader needs to know while it reads: labels for the calls that it builds, the domains
    of expressions, and whether an expression lies in a named domain.  It also says what is to
    happen when the reader has used up a bound on its steps, and when it asks for tokens that are
    not there. -/
structure Host (m : Type → Type) (α : Type) where
  fresh : m α
  domain : Tree α → m Literal
  compatible : Tree α → Literal → m Bool
  exhausted : m Unit
  outOfRange : m Unit

/-- The reader's view of an engine when calls need not be told apart. -/
def Engine.host (engine : Engine Unit) : Host Id Unit where
  fresh := pure ()
  domain e := pure (engine.domain e)
  compatible e l := pure (engine.isCompatible e (.literal l))
  exhausted := pure ()
  outOfRange := pure ()

end Formula
