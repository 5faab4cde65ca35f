import Formula.Domain.Order

/-!
  **Questions that need the table of ancestors.**

  Many comparisons of domains are settled by their form alone.  `consults a b` says whether
  `isSubdomain a b` comes to compare two different names on its way to the answer; members that
  are not looked at because the answer is already known do not count.
-/

namespace Formula

namespace Domain

mutual

/-- Does the comparison of `a` with `b` need the ancestors of a named domain? -/
def consults (a b : Domain) : Bool :=
  !(a == b) &&
  match a, b with
  | _, .literal .anything => false
  | .union ds, b => consultsAllBelow ds b
  | .intersection ds, b => consultsAnyBelow ds b
  | a, .union ds => consultsAnyAbove a ds
  | a, .intersection ds => consultsAllAbove a ds
  | a, .maybe d => !isOptional a && consults a d
  | .maybe d, b => consults d b
  | .sequence d, b => consults d b
  | a, .literal r =>
    match a.baseLiteral? with
    | some l => l != r
    | none => false
  | .list a, .list b => consults a b
  | .dictionary a, .dictionary b => consults a b
  | .tuple as, .tuple bs => as.length == bs.length && consultsPointwise as bs
  | _, _ => false
termination_by sizeOf a + sizeOf b

/-- The question for `allBelow`, which ends at the first domain that does not lie in `b`. -/
def consultsAllBelow : List Domain → Domain → Bool
  | [], _ => false
  | d :: ds, b => consults d b || (isSubdomain d b && consultsAllBelow ds b)
termination_by ds b => sizeOf ds + sizeOf b

/-- The question for `anyBelow`, which ends at the first domain that lies in `b`. -/
def consultsAnyBelow : List Domain → Domain → Bool
  | [], _ => false
  | d :: ds, b => consults d b || (!isSubdomain d b && consultsAnyBelow ds b)
termination_by ds b => sizeOf ds + sizeOf b

def consultsAllAbove (a : Domain) : List Domain → Bool
  | [] => false
  | d :: ds => consults a d || (isSubdomain a d && consultsAllAbove a ds)
termination_by ds => sizeOf a + sizeOf ds

def consultsAnyAbove (a : Domain) : List Domain → Bool
  | [] => false
  | d :: ds => consults a d || (!isSubdomain a d && consultsAnyAbove a ds)
termination_by ds => sizeOf a + sizeOf ds

def consultsPointwise : List Domain → List Domain → Bool
  | a :: as, b :: bs => consults a b || (isSubdomain a b && consultsPointwise as bs)
  | _, _ => false
termination_by as bs => sizeOf as + sizeOf bs

end

/-- Do the ancestors of a domain come from the table? -/
def ancestorsConsult (d : Domain) : Bool := d.baseLiteral?.isSome

end Domain

end Formula
