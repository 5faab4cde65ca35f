import Formula.Domain.Literal

/-!
  **Ancestors of the named domains.**

  The strict ancestors of a domain are its parents and theirs, each once, in the order in which
  they are first reached.  They are computed for all domains together: a visit of a domain visits
  its parents first and keeps their lists, so no list is put together twice.  A domain that is met
  again while its own parents are being visited lies on a cycle of the table.
-/

namespace Formula

/-- A set of named domains, one bit for each. -/
structure LiteralSet where
  bits : Nat
deriving DecidableEq, Repr

namespace LiteralSet

def empty : LiteralSet := ⟨0⟩

def contains (s : LiteralSet) (l : Literal) : Bool := s.bits.testBit l.index

def insert (s : LiteralSet) (l : Literal) : LiteralSet := ⟨s.bits ||| 1 <<< l.index⟩

def erase (s : LiteralSet) (l : Literal) : LiteralSet :=
  if s.contains l then ⟨s.bits ^^^ 1 <<< l.index⟩ else s

end LiteralSet

/-- What is known about one visited domain: its strict ancestors in the order they are reached,
    and the same domains as a set. -/
structure Ancestry where
  ordered : List Literal
  members : LiteralSet
deriving DecidableEq, Repr

namespace Ancestry

def empty : Ancestry := ⟨[], .empty⟩

/-- Take in one more ancestor, unless it is there already. -/
def push (a : Ancestry) (l : Literal) : Ancestry :=
  if a.members.contains l then a else ⟨a.ordered ++ [l], a.members.insert l⟩

/-- Take in a parent and then what is above it. -/
def inherit (a : Ancestry) (parent : Literal) (above : List Literal) : Ancestry :=
  (parent :: above).foldl push a

end Ancestry

/-- The ancestor lists found so far, and the domains whose parents are being visited. -/
structure AncestorBuilder where
  known : List (Literal × Ancestry)
  visiting : LiteralSet
deriving DecidableEq, Repr

namespace AncestorBuilder

def empty : AncestorBuilder := ⟨[], .empty⟩

def get? (b : AncestorBuilder) (l : Literal) : Option Ancestry := b.known.lookup l

/-- Visit a domain: nothing to do if it is known; otherwise visit its parents in order, taking in
    each with what is above it.  The error is a domain that lies on a cycle.  The first argument
    bounds the length of a chain of parents. -/
def visitWithin : Nat → Literal → AncestorBuilder → Except Literal AncestorBuilder
  | 0, l, _ => .error l
  | bound + 1, l, b =>
    match b.get? l with
    | some _ => .ok b
    | none =>
      if b.visiting.contains l then .error l
      else do
        let start : AncestorBuilder × Ancestry :=
          ({ b with visiting := b.visiting.insert l }, .empty)
        let (after, ancestry) ← l.parents.foldlM (fun (b, ancestry) parent => do
          let b ← visitWithin bound parent b
          let above := ((b.get? parent).map Ancestry.ordered).getD []
          pure (b, ancestry.inherit parent above)) start
        pure ⟨(l, ancestry) :: after.known, after.visiting.erase l⟩

/-- Visit a domain.  A chain of parents longer than the table passes a domain twice. -/
def visit (l : Literal) (b : AncestorBuilder) : Except Literal AncestorBuilder :=
  visitWithin (Literal.all.length + 1) l b

def visitAll (ls : List Literal) (b : AncestorBuilder) : Except Literal AncestorBuilder :=
  ls.foldlM (fun b l => visit l b) b

end AncestorBuilder

/-- The ancestors of all named domains.  The walk up from `Void` reaches almost every domain; the
    sweep over the table adds the few that are not above it. -/
def ancestorTable : AncestorBuilder :=
  match AncestorBuilder.visitAll (.void :: Literal.all) .empty with
  | .ok b => b
  | .error _ => .empty

namespace Literal

/-- The strict ancestors of a domain, in the order they are reached. -/
def ancestors (l : Literal) : List Literal :=
  ((ancestorTable.get? l).map Ancestry.ordered).getD []

/-- Is every value of `a` a value of `b`? -/
def isBelow (a b : Literal) : Bool :=
  a == b || ((ancestorTable.get? a).map (·.members.contains b)).getD false

end Literal

end Formula
