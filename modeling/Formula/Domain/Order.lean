import Formula.Domain
import Formula.Domain.Lattice

/-!
  **When one domain lies in another.**

  `isSubdomain a b` asks whether every value of `a` is a value of `b`.  The rules are tried in
  order: equal domains; everything lies in `Anything`; a union on the left lies in `b` when all its
  members do, an intersection on the left when one of them does; then the same on the right, all
  and one exchanged; an optional domain on the right; on the left an optional domain or a
  sequence counts as its content; a named domain on the right is compared with what the left one
  comes down to; and last, lists, dictionaries and tuples are compared by content.
-/

namespace Formula

namespace Domain

/-- The named domains that lie in every optional domain. -/
def isOptional : Domain → Bool
  | .literal .nothing => true
  | .literal .void => true
  | _ => false

mutual

/-- Is every value of `a` a value of `b`? -/
def isSubdomain (a b : Domain) : Bool :=
  a == b ||
  match a, b with
  | _, .literal .anything => true
  | .union ds, b => allBelow ds b
  | .intersection ds, b => anyBelow ds b
  | a, .union ds => anyAbove a ds
  | a, .intersection ds => allAbove a ds
  | a, .maybe d => isOptional a || isSubdomain a d
  | .maybe d, b => isSubdomain d b
  | .sequence d, b => isSubdomain d b
  | a, .literal r =>
    match a.baseLiteral? with
    | some l => l.isBelow r
    | none => false
  | .list a, .list b => isSubdomain a b
  | .dictionary a, .dictionary b => isSubdomain a b
  | .tuple as, .tuple bs => pointwise as bs
  | .functions _, .functions _ => true
  | _, _ => false
termination_by sizeOf a + sizeOf b

def allBelow : List Domain → Domain → Bool
  | [], _ => true
  | d :: ds, b => isSubdomain d b && allBelow ds b
termination_by ds b => sizeOf ds + sizeOf b

def anyBelow : List Domain → Domain → Bool
  | [], _ => false
  | d :: ds, b => isSubdomain d b || anyBelow ds b
termination_by ds b => sizeOf ds + sizeOf b

def allAbove (a : Domain) : List Domain → Bool
  | [] => true
  | d :: ds => isSubdomain a d && allAbove a ds
termination_by ds => sizeOf a + sizeOf ds

def anyAbove (a : Domain) : List Domain → Bool
  | [] => false
  | d :: ds => isSubdomain a d || anyAbove a ds
termination_by ds => sizeOf a + sizeOf ds

/-- Are the two lists of one length, each domain of the first in its counterpart? -/
def pointwise : List Domain → List Domain → Bool
  | [], [] => true
  | a :: as, b :: bs => isSubdomain a b && pointwise as bs
  | _, _ => false
termination_by as bs => sizeOf as + sizeOf bs

end

/-- The named domains above a domain, in the order they are reached from what it comes down to.
    Of a domain that comes down to no name only `Anything` is known. -/
def ancestors (d : Domain) : List Literal :=
  match d.baseLiteral? with
  | some l => l.ancestors
  | none => [.anything]

end Domain

end Formula
