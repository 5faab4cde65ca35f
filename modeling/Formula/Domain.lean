import Formula.Domain.Literal
import Formula.Expr

/-!
  **Domains.**

  A domain is named, or constructed from other domains, from a name or from a value.
-/

namespace Formula

/-- The constructors of domains. -/
inductive DomainConstructor where
  | functions
  | list
  | tuple
  | maybe
  | sequence
  | union
  | intersection
  | head
  | symbol
  | value
  | dictionary
deriving DecidableEq, Repr

namespace DomainConstructor

def name : DomainConstructor → String
  | .functions => "Functions"
  | .list => "List"
  | .tuple => "Tuple"
  | .maybe => "Maybe"
  | .sequence => "Sequence"
  | .union => "Union"
  | .intersection => "Intersection"
  | .head => "Head"
  | .symbol => "Symbol"
  | .value => "Value"
  | .dictionary => "Dictionary"

def all : List DomainConstructor :=
  [.functions, .list, .tuple, .maybe, .sequence, .union, .intersection, .head, .symbol, .value,
   .dictionary]

def ofName? (name : String) : Option DomainConstructor := all.find? (·.name == name)

end DomainConstructor

/-- A set of values. -/
inductive Domain where
  | literal (l : Literal)
  /-- Functions from the domains of their parameters to the last domain. -/
  | functions (ds : List Domain)
  | list (d : Domain)
  | tuple (ds : List Domain)
  | maybe (d : Domain)
  | sequence (d : Domain)
  | union (ds : List Domain)
  | intersection (ds : List Domain)
  | head (name : String)
  | symbol (name : String)
  | value (e : Expr)
  | dictionary (d : Domain)
deriving Repr

namespace Domain

instance : Coe Literal Domain := ⟨.literal⟩

mutual

/-- Equality of domains.  Values are compared as expressions, so one that holds NaN is not equal
    to itself. -/
def same : Domain → Domain → Bool
  | .literal a, .literal b => a == b
  | .functions as, .functions bs => sameAll as bs
  | .list a, .list b => same a b
  | .tuple as, .tuple bs => sameAll as bs
  | .maybe a, .maybe b => same a b
  | .sequence a, .sequence b => same a b
  | .union as, .union bs => sameAll as bs
  | .intersection as, .intersection bs => sameAll as bs
  | .head a, .head b => a == b
  | .symbol a, .symbol b => a == b
  | .value a, .value b => a == b
  | .dictionary a, .dictionary b => same a b
  | _, _ => false

def sameAll : List Domain → List Domain → Bool
  | [], [] => true
  | a :: as, b :: bs => same a b && sameAll as bs
  | _, _ => false

end

instance : BEq Domain := ⟨same⟩

def literal? : Domain → Option Literal
  | .literal l => some l
  | _ => none

def constructor? : Domain → Option DomainConstructor
  | .literal _ => none
  | .functions _ => some .functions
  | .list _ => some .list
  | .tuple _ => some .tuple
  | .maybe _ => some .maybe
  | .sequence _ => some .sequence
  | .union _ => some .union
  | .intersection _ => some .intersection
  | .head _ => some .head
  | .symbol _ => some .symbol
  | .value _ => some .value
  | .dictionary _ => some .dictionary

/-- The named domain that a domain comes down to by its construction, if there is one. -/
def baseLiteral? : Domain → Option Literal
  | .literal l => some l
  | .functions _ => some .functions
  | .head _ => some .functions
  | .symbol _ => some .symbols
  | .tuple _ => some .tuples
  | .list _ => some .lists
  | .dictionary _ => some .dictionaries
  | .maybe d => d.baseLiteral?
  | .sequence d => d.baseLiteral?
  | .union _ => none
  | .intersection _ => none
  | .value _ => none

end Domain

/-- The signature shared by the functions of a named domain of functions. -/
def Literal.signature? : Literal → Option Domain
  | .numericFunctions => some (.functions [.sequence (.literal .numbers), .literal .numbers])
  | .realFunctions =>
    some (.functions
      [.sequence (.literal .extendedRealNumbers), .literal .extendedRealNumbers])
  | .logicOperators =>
    some (.functions
      [.literal .maybeBooleans, .maybe (.literal .maybeBooleans), .literal .maybeBooleans])
  | .predicates => some (.functions [.sequence (.literal .anything), .literal .maybeBooleans])
  | .relationalOperators =>
    some (.functions [.literal .anything, .literal .anything, .literal .maybeBooleans])
  | _ => none

end Formula
