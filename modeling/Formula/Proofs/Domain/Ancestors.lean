import Formula.Proofs.Domain.Optional
import Mathlib.Logic.Relation

/-!
  **What the table of ancestors holds.**

  A named domain lies below its parents, below theirs, and so on.  `lineage` puts all that is above
  a domain together without a table, from the lineages of its parents: each ancestor once, in the
  order in which they are first reached, and the same domains as a set.  It comes to an end because
  a parent has less height than its child.

  The builder of the table reaches the same lists by visits that remember what they have found.  A
  visit of a domain enters the lineages of the domain and of everything above it, and changes
  nothing else: the domains that are being visited have more height than the one that is visited
  next, so none of them is met again.  After any visits, in whatever order they came, the builder is
  at rest and knows just the domains that were visited and those above them.
-/

namespace Formula

open Relation (TransGen ReflTransGen)

/-! ### Sets of named domains -/

namespace LiteralSet

theorem index_inj {a b : Literal} : a.index = b.index ↔ a = b :=
  List.idxOf_inj (Literal.mem_all a)

@[simp] theorem contains_empty (l : Literal) : empty.contains l = false :=
  Nat.zero_testBit _

theorem contains_insert (s : LiteralSet) (l x : Literal) :
    (s.insert l).contains x = true ↔ s.contains x = true ∨ x = l := by
  rw [contains, insert, contains, Nat.testBit_or, Nat.one_shiftLeft, Nat.testBit_two_pow,
    Bool.or_eq_true, decide_eq_true_iff, index_inj]
  exact or_congr_right eq_comm

/-- A set from which a new member is taken out again is the set that it was. -/
theorem erase_insert {s : LiteralSet} {l : Literal} (h : s.contains l = false) :
    (s.insert l).erase l = s := by
  have hin : (s.insert l).contains l = true := (contains_insert s l l).mpr (Or.inr rfl)
  rw [erase, if_pos hin]
  obtain ⟨bits⟩ := s
  rw [insert, mk.injEq]
  apply Nat.eq_of_testBit_eq
  intro i
  rw [Nat.testBit_xor, Nat.testBit_or, Nat.one_shiftLeft, Nat.testBit_two_pow]
  by_cases hi : l.index = i
  · subst hi
    simpa [contains] using h.symm
  · simp [hi]

end LiteralSet

/-! ### Heights -/

namespace Literal

/-- The length of the longest way up over parents, as far as the bound goes. -/
def heightWithin : Nat → Literal → Nat
  | 0, _ => 0
  | bound + 1, l => (l.parents.map fun parent => heightWithin bound parent + 1).foldr max 0

def height (l : Literal) : Nat := heightWithin all.length l

theorem height_lt_of_mem_parents {l parent : Literal} (h : parent ∈ l.parents) :
    parent.height < l.height := by
  have hall : ∀ l ∈ all, ∀ parent ∈ l.parents, parent.height < l.height := by decide +kernel
  exact hall l (mem_all l) parent h

theorem height_lt (l : Literal) : l.height < all.length + 1 := by
  have hall : ∀ l ∈ all, l.height < all.length + 1 := by decide +kernel
  exact hall l (mem_all l)

/-! ### Ways up -/

def IsParent (child parent : Literal) : Prop := parent ∈ child.parents

/-- The domain `x` is a strict ancestor of `l`. -/
def Above (l x : Literal) : Prop := TransGen IsParent l x

/-- The domain `x` is `l` or a strict ancestor of it. -/
def Reaches (l x : Literal) : Prop := ReflTransGen IsParent l x

theorem reaches_iff {l x : Literal} : l.Reaches x ↔ x = l ∨ l.Above x :=
  Relation.reflTransGen_iff_eq_or_transGen

theorem above_iff {l x : Literal} : l.Above x ↔ ∃ parent ∈ l.parents, parent.Reaches x :=
  TransGen.head'_iff

theorem Above.height_lt {l x : Literal} (h : l.Above x) : x.height < l.height := by
  induction h with
  | single h => exact height_lt_of_mem_parents h
  | tail _ h ih => exact Nat.lt_trans (height_lt_of_mem_parents h) ih

theorem not_above_self (l : Literal) : ¬ l.Above l := fun h =>
  Nat.lt_irrefl _ h.height_lt

/-- Every way up ends at the domain of everything. -/
theorem reaches_anything (l : Literal) : l.Reaches .anything := by
  induction hn : l.height using Nat.strongRecOn generalizing l with
  | _ n ih =>
    subst hn
    rcases hparents : l.parents with _ | ⟨parent, others⟩
    · have hall : ∀ l ∈ all, l.parents = [] → l = .anything := by decide
      rw [hall l (mem_all l) hparents]
      exact .refl
    · have hparent : parent ∈ l.parents := by rw [hparents]; exact List.mem_cons_self
      exact .head hparent (ih _ (height_lt_of_mem_parents hparent) parent rfl)

end Literal

/-! ### Lists of ancestors -/

namespace Ancestry

/-- The domains with the property, each once in the list, and the same ones in the set. -/
structure Lists (a : Ancestry) (P : Literal → Prop) : Prop where
  nodup : a.ordered.Nodup
  mem_ordered : ∀ x, x ∈ a.ordered ↔ P x
  mem_members : ∀ x, a.members.contains x = true ↔ P x

variable {a : Ancestry} {P Q : Literal → Prop}

theorem Lists.congr (h : a.Lists P) (hPQ : ∀ x, P x ↔ Q x) : a.Lists Q where
  nodup := h.nodup
  mem_ordered x := (h.mem_ordered x).trans (hPQ x)
  mem_members x := (h.mem_members x).trans (hPQ x)

theorem lists_empty : empty.Lists fun _ => False where
  nodup := List.nodup_nil
  mem_ordered x := by simp [empty]
  mem_members x := by simp [empty]

theorem Lists.push (h : a.Lists P) (l : Literal) : (a.push l).Lists fun x => P x ∨ x = l := by
  unfold Ancestry.push
  split
  · rename_i hin
    have hl : P l := (h.mem_members l).mp hin
    refine h.congr fun x => (or_iff_left_of_imp ?_).symm
    rintro rfl
    exact hl
  · rename_i hout
    have hl : l ∉ a.ordered := by rwa [h.mem_ordered, ← h.mem_members]
    constructor
    · refine List.nodup_append.mpr ⟨h.nodup, List.pairwise_singleton _ l, ?_⟩
      rintro x hx y hy rfl
      exact hl (List.mem_singleton.mp hy ▸ hx)
    · intro x
      rw [List.mem_append, List.mem_singleton, h.mem_ordered]
    · intro x
      rw [LiteralSet.contains_insert, h.mem_members]

theorem Lists.foldl_push (h : a.Lists P) (ls : List Literal) :
    (ls.foldl Ancestry.push a).Lists fun x => P x ∨ x ∈ ls := by
  induction ls generalizing a P with
  | nil => simpa using h
  | cons l ls ih =>
    refine (ih (h.push l)).congr fun x => ?_
    rw [List.mem_cons, or_assoc]

theorem Lists.inherit (h : a.Lists P) {parent : Literal} {above : List Literal}
    (habove : ∀ x, x ∈ above ↔ parent.Above x) :
    (a.inherit parent above).Lists fun x => P x ∨ parent.Reaches x := by
  refine (h.foldl_push (parent :: above)).congr fun x => ?_
  rw [List.mem_cons, habove, Literal.reaches_iff]

end Ancestry

/-! ### Lineages -/

namespace Literal

/-- What is above a domain, put together from what is above each of its parents. -/
def lineage (l : Literal) : Ancestry :=
  l.parents.attach.foldl (fun a parent => a.inherit parent.1 (lineage parent.1).ordered) .empty
termination_by l.height
decreasing_by exact height_lt_of_mem_parents parent.2

/-- Take in a parent with its lineage. -/
def descend (a : Ancestry) (parent : Literal) : Ancestry :=
  a.inherit parent parent.lineage.ordered

theorem lineage_eq (l : Literal) : l.lineage = l.parents.foldl descend .empty := by
  rw [lineage]
  exact List.foldl_attach (f := descend)

theorem lists_foldl_descend {ps : List Literal} (hps : ∀ p ∈ ps, p.lineage.Lists p.Above)
    {a : Ancestry} {P : Literal → Prop} (ha : a.Lists P) :
    (ps.foldl descend a).Lists fun x => P x ∨ ∃ p ∈ ps, p.Reaches x := by
  induction ps generalizing a P with
  | nil => simpa using ha
  | cons p ps ih =>
    have hp := hps p List.mem_cons_self
    have hstep := ih (fun q hq => hps q (List.mem_cons_of_mem p hq)) (ha.inherit hp.mem_ordered)
    refine hstep.congr fun x => ?_
    rw [or_assoc]
    simp

/-- The lineage of a domain lists its strict ancestors. -/
theorem lists_lineage (l : Literal) : l.lineage.Lists l.Above := by
  induction hn : l.height using Nat.strongRecOn generalizing l with
  | _ n ih =>
    subst hn
    rw [lineage_eq]
    have hparents : ∀ p ∈ l.parents, p.lineage.Lists p.Above := fun p hp =>
      ih _ (height_lt_of_mem_parents hp) p rfl
    refine (lists_foldl_descend hparents Ancestry.lists_empty).congr fun x => ?_
    rw [false_or, above_iff]

end Literal

/-! ### The builder -/

namespace AncestorBuilder

/-- What is known are lineages, and with a domain everything above it is known. -/
structure Consistent (b : AncestorBuilder) : Prop where
  eq_lineage : ∀ {l : Literal} {a : Ancestry}, b.get? l = some a → a = l.lineage
  closed : ∀ {l x : Literal}, (b.get? l).isSome → l.Above x → (b.get? x).isSome

/-- Between the two the lineages of the domains with the property were entered, and no more. -/
structure Enters (P : Literal → Prop) (b b' : AncestorBuilder) : Prop where
  visiting_eq : b'.visiting = b.visiting
  entered : ∀ {x}, P x → b'.get? x = some x.lineage
  other : ∀ {x}, ¬ P x → b'.get? x = b.get? x

theorem consistent_empty : empty.Consistent where
  eq_lineage h := by cases h
  closed h := by cases h

theorem Consistent.get?_of_isSome {b : AncestorBuilder} (hb : b.Consistent) {l : Literal}
    (h : (b.get? l).isSome) : b.get? l = some l.lineage := by
  obtain ⟨a, ha⟩ := Option.isSome_iff_exists.mp h
  rw [ha, hb.eq_lineage ha]

namespace Enters

variable {P Q : Literal → Prop} {b b' b'' : AncestorBuilder}

theorem congr (h : Enters P b b') (hPQ : ∀ x, P x ↔ Q x) : Enters Q b b' where
  visiting_eq := h.visiting_eq
  entered hx := h.entered ((hPQ _).mpr hx)
  other hx := h.other (mt (hPQ _).mp hx)

theorem trans (h : Enters P b b') (h' : Enters Q b' b'') : Enters (fun x => P x ∨ Q x) b b'' where
  visiting_eq := h'.visiting_eq.trans h.visiting_eq
  entered {x} hx := by
    by_cases hQ : Q x
    · exact h'.entered hQ
    · rw [h'.other hQ]
      exact h.entered (hx.resolve_right hQ)
  other {x} hx := by
    rw [not_or] at hx
    rw [h'.other hx.2, h.other hx.1]

/-- What is entered may be entered again. -/
theorem of_known (hb : b.Consistent) (h : ∀ x, P x → (b.get? x).isSome) : Enters P b b where
  visiting_eq := rfl
  entered hx := hb.get?_of_isSome (h _ hx)
  other _ := rfl

theorem isSome (h : Enters P b b') {x : Literal} :
    (b'.get? x).isSome ↔ P x ∨ (b.get? x).isSome := by
  by_cases hx : P x
  · rw [h.entered hx]
    simp [hx]
  · rw [h.other hx]
    simp [hx]

theorem consistent (h : Enters P b b') (hb : b.Consistent)
    (hclosed : ∀ {l x}, P l → l.Above x → P x) : b'.Consistent where
  eq_lineage {l a} ha := by
    by_cases hl : P l
    · rw [h.entered hl] at ha
      exact (Option.some.inj ha).symm
    · rw [h.other hl] at ha
      exact hb.eq_lineage ha
  closed {l x} hl hx := by
    rw [h.isSome] at hl ⊢
    rcases hl with hl | hl
    · exact Or.inl (hclosed hl hx)
    · exact Or.inr (hb.closed hl hx)

end Enters

/-- Visit a parent and take in what is above it. -/
def takeParent (bound : Nat) (state : AncestorBuilder × Ancestry) (parent : Literal) :
    Except Literal (AncestorBuilder × Ancestry) := do
  let b ← visitWithin bound parent state.1
  pure (b, state.2.inherit parent (((b.get? parent).map Ancestry.ordered).getD []))

theorem visitWithin_unknown {bound : Nat} {l : Literal} {b : AncestorBuilder}
    (hunknown : b.get? l = none) (hvisiting : b.visiting.contains l = false) :
    visitWithin (bound + 1) l b =
      (l.parents.foldlM (takeParent bound) ({ b with visiting := b.visiting.insert l }, .empty)).map
        fun state => ⟨(l, state.2) :: state.1.known, state.1.visiting.erase l⟩ := by
  rw [visitWithin, hunknown]
  simp only [hvisiting, Bool.false_eq_true, if_false]
  rfl

/-- No domain that is being visited is met again from `l`. -/
def Clear (b : AncestorBuilder) (l : Literal) : Prop :=
  ∀ x, b.visiting.contains x = true → l.height < x.height

/-- The visits of the parents of a domain, one after the other. -/
theorem foldlM_takeParent {bound : Nat}
    (hvisit : ∀ {l b}, l.height < bound → Consistent b → b.Clear l →
      ∃ b', visitWithin bound l b = .ok b' ∧ Enters l.Reaches b b')
    {ps : List Literal} {b : AncestorBuilder} (a : Ancestry)
    (hps : ∀ p ∈ ps, p.height < bound ∧ b.Clear p) (hb : b.Consistent) :
    ∃ b', ps.foldlM (takeParent bound) (b, a) = .ok (b', ps.foldl Literal.descend a) ∧
      Enters (fun x => ∃ p ∈ ps, p.Reaches x) b b' := by
  induction ps generalizing b a with
  | nil => exact ⟨b, rfl, .of_known hb (by simp)⟩
  | cons p ps ih =>
    obtain ⟨hbound, hclear⟩ := hps p List.mem_cons_self
    obtain ⟨b₁, hrun, henters⟩ := hvisit hbound hb hclear
    have hb₁ : b₁.Consistent := henters.consistent hb fun hl hx => hl.trans hx.to_reflTransGen
    have hps₁ : ∀ q ∈ ps, q.height < bound ∧ b₁.Clear q := by
      intro q hq
      rw [Clear, henters.visiting_eq]
      exact hps q (List.mem_cons_of_mem p hq)
    have hknown : b₁.get? p = some p.lineage := henters.entered .refl
    obtain ⟨b₂, hrest, henters₂⟩ := ih (Literal.descend a p) hps₁ hb₁
    refine ⟨b₂, ?_, (henters.trans henters₂).congr (by simp)⟩
    have hstep : takeParent bound (b, a) p = .ok (b₁, Literal.descend a p) := by
      rw [takeParent, hrun]
      change Except.ok (b₁, a.inherit p (((b₁.get? p).map Ancestry.ordered).getD [])) = _
      rw [hknown]
      rfl
    rw [List.foldlM_cons, hstep]
    exact hrest

/-- **A visit enters the lineages of the domain and of all that is above it.** -/
theorem visitWithin_enters {bound : Nat} {l : Literal} {b : AncestorBuilder}
    (hbound : l.height < bound) (hb : b.Consistent) (hclear : b.Clear l) :
    ∃ b', visitWithin bound l b = .ok b' ∧ Enters l.Reaches b b' := by
  induction bound generalizing l b with
  | zero => exact absurd hbound (Nat.not_lt_zero _)
  | succ bound ih =>
    rcases hknown : b.get? l with _ | a
    · have hvisiting : b.visiting.contains l = false := by
        rw [← Bool.not_eq_true]
        exact fun h => Nat.lt_irrefl _ (hclear l h)
      let start : AncestorBuilder := { b with visiting := b.visiting.insert l }
      have hstart : start.Consistent := ⟨hb.eq_lineage, hb.closed⟩
      have hparents : ∀ p ∈ l.parents, p.height < bound ∧ start.Clear p := by
        intro p hp
        have hlt := Literal.height_lt_of_mem_parents hp
        refine ⟨by omega, ?_⟩
        intro x hx
        rcases (LiteralSet.contains_insert _ _ _).mp hx with hx | rfl
        · exact Nat.lt_trans hlt (hclear x hx)
        · exact hlt
      obtain ⟨after, hrun, henters⟩ := foldlM_takeParent ih .empty hparents hstart
      refine ⟨⟨(l, l.lineage) :: after.known, after.visiting.erase l⟩, ?_, ?_, ?_, ?_⟩
      · rw [visitWithin_unknown hknown hvisiting, hrun, Literal.lineage_eq]
        rfl
      · rw [henters.visiting_eq]
        exact LiteralSet.erase_insert hvisiting
      · intro x hx
        by_cases hxl : x = l
        · rw [hxl]
          exact List.lookup_cons_self
        · have habove := (Literal.reaches_iff.mp hx).resolve_left hxl
          rw [get?, List.lookup_cons, beq_eq_false_iff_ne.mpr hxl]
          exact henters.entered (Literal.above_iff.mp habove)
      · intro x hx
        rw [Literal.reaches_iff, not_or] at hx
        rw [get?, List.lookup_cons, beq_eq_false_iff_ne.mpr hx.1]
        exact henters.other (mt Literal.above_iff.mpr hx.2)
    · have hsome : (b.get? l).isSome := by rw [hknown]; rfl
      refine ⟨b, by rw [visitWithin, hknown], .of_known hb fun x hx => ?_⟩
      rcases Literal.reaches_iff.mp hx with rfl | habove
      · exact hsome
      · exact hb.closed hsome habove

/-- A visit of a builder that is at rest. -/
theorem visit_enters {b : AncestorBuilder} (hb : b.Consistent) (hidle : b.visiting = .empty)
    (l : Literal) : ∃ b', visit l b = .ok b' ∧ Enters l.Reaches b b' := by
  refine visitWithin_enters l.height_lt hb ?_
  intro x hx
  rw [hidle, LiteralSet.contains_empty] at hx
  cases hx

theorem visitAll_enters {b : AncestorBuilder} (hb : b.Consistent) (hidle : b.visiting = .empty)
    (ls : List Literal) :
    ∃ b', visitAll ls b = .ok b' ∧ Enters (fun x => ∃ l ∈ ls, l.Reaches x) b b' := by
  induction ls generalizing b with
  | nil => exact ⟨b, rfl, .of_known hb (by simp)⟩
  | cons l ls ih =>
    obtain ⟨b₁, hrun, henters⟩ := visit_enters hb hidle l
    have hb₁ : b₁.Consistent := henters.consistent hb fun hl hx => hl.trans hx.to_reflTransGen
    obtain ⟨b₂, hrest, henters₂⟩ := ih hb₁ (henters.visiting_eq.trans hidle)
    refine ⟨b₂, ?_, (henters.trans henters₂).congr (by simp)⟩
    rw [visitAll, List.foldlM_cons, hrun]
    exact hrest

/-! ### Visits in any order -/

/-- What is entered determines what is known afterwards. -/
theorem Enters.get?_eq {P : Literal → Prop} {b b₁ b₂ : AncestorBuilder} (h₁ : Enters P b b₁)
    (h₂ : Enters P b b₂) (l : Literal) : b₁.get? l = b₂.get? l := by
  by_cases hl : P l
  · rw [h₁.entered hl, h₂.entered hl]
  · rw [h₁.other hl, h₂.other hl]

/-- **Visits in any order find out about a domain what a visit of this domain alone finds out.** -/
theorem visitAll_exact (visits : List Literal) :
    ∃ b, visitAll visits empty = .ok b ∧ b.visiting = .empty ∧
      (∀ l, (b.get? l).isSome ↔ ∃ v ∈ visits, v.Reaches l) ∧
      (∀ l a, b.get? l = some a → a.Lists l.Above ∧
        ∃ fresh, visit l empty = .ok fresh ∧ fresh.get? l = some a) ∧
      ∀ others, (∀ v, v ∈ others ↔ v ∈ visits) →
        ∃ b', visitAll others empty = .ok b' ∧ ∀ l, b'.get? l = b.get? l := by
  obtain ⟨b, hrun, henters⟩ := visitAll_enters consistent_empty rfl visits
  refine ⟨b, hrun, henters.visiting_eq, ?_, ?_, ?_⟩
  · intro l
    rw [henters.isSome]
    exact or_iff_left fun h => Bool.false_ne_true h
  · intro l a ha
    have hclosed : b.Consistent := henters.consistent consistent_empty
      fun ⟨v, hv, hl⟩ hx => ⟨v, hv, hl.trans hx.to_reflTransGen⟩
    obtain rfl := hclosed.eq_lineage ha
    obtain ⟨fresh, hfresh, hone⟩ := visit_enters consistent_empty rfl l
    exact ⟨l.lists_lineage, fresh, hfresh, hone.entered .refl⟩
  · intro others hsame
    obtain ⟨b', hrun', henters'⟩ := visitAll_enters consistent_empty rfl others
    exact ⟨b', hrun', (henters'.congr fun x => by simp only [hsame]).get?_eq henters⟩

theorem visitAll_exact_twice :
    ∃ b b', visitAll [.integers, .strings, .integers] empty = .ok b ∧
      visitAll [.strings, .integers] empty = .ok b' ∧ (∀ l, b'.get? l = b.get? l) ∧
      (b.get? .rationalNumbers).isSome ∧ ¬ (b.get? .void).isSome := by
  obtain ⟨b, hrun, -, hknown, -, hothers⟩ := visitAll_exact [.integers, .strings, .integers]
  have hmembers : ∀ v : Literal,
      v ∈ [.strings, .integers] ↔ v ∈ [.integers, .strings, .integers] := by
    intro v
    simp only [List.mem_cons, List.not_mem_nil]
    tauto
  obtain ⟨b', hrun', hsame⟩ := hothers [.strings, .integers] hmembers
  refine ⟨b, b', hrun, hrun', hsame, ?_, ?_⟩
  · have hparent : .rationalNumbers ∈ Literal.integers.parents := by decide
    exact (hknown _).mpr ⟨.integers, by decide, .single hparent⟩
  · rw [hknown]
    rintro ⟨v, hv, hreaches⟩
    have hlow : ∀ v ∈ [Literal.integers, .strings, .integers], v.height < Literal.void.height := by
      decide +kernel
    rcases Literal.reaches_iff.mp hreaches with rfl | habove
    · exact Nat.lt_irrefl _ (hlow _ hv)
    · exact Nat.lt_asymm (hlow v hv) habove.height_lt

end AncestorBuilder

/-! ### The table -/

theorem ancestorTable_get? (l : Literal) : ancestorTable.get? l = some l.lineage := by
  obtain ⟨b, hrun, henters⟩ :=
    AncestorBuilder.visitAll_enters AncestorBuilder.consistent_empty rfl (.void :: Literal.all)
  rw [ancestorTable, hrun]
  exact henters.entered ⟨l, List.mem_cons_of_mem _ l.mem_all, .refl⟩

namespace Literal

theorem mem_ancestors_iff {l x : Literal} : x ∈ l.ancestors ↔ l.Above x := by
  rw [ancestors, ancestorTable_get?]
  exact l.lists_lineage.mem_ordered x

theorem nodup_ancestors (l : Literal) : l.ancestors.Nodup := by
  rw [ancestors, ancestorTable_get?]
  exact l.lists_lineage.nodup

theorem isBelow_iff {l x : Literal} : l.isBelow x = true ↔ l.Reaches x := by
  rw [isBelow, ancestorTable_get?, Bool.or_eq_true, beq_iff_eq, reaches_iff]
  exact or_congr eq_comm (l.lists_lineage.mem_members x)

end Literal

/-! ### Domains that come down to a name -/

namespace Domain

/-- On the left a sequence counts as its content, in front of a named domain. -/
theorem sequence_below_named_iff {d : Domain} {r : Literal} (hr : r ≠ .anything) :
    isSubdomain (.sequence d) (.literal r) = true ↔ isSubdomain d (.literal r) = true := by
  rw [isSubdomain.eq_def]
  cases r with
  | anything => exact absurd rfl hr
  | _ => exact Iff.rfl

theorem below_named_of_baseLiteral {d : Domain} {l r : Literal} (h : d.baseLiteral? = some l)
    (hr : r ≠ .anything) : isSubdomain d (.literal r) = true ↔ l.isBelow r = true := by
  match d with
  | .maybe d =>
    rw [maybe_below_whole_iff rfl]
    exact below_named_of_baseLiteral (d := d) h hr
  | .sequence d =>
    rw [sequence_below_named_iff hr]
    exact below_named_of_baseLiteral (d := d) h hr
  | .literal _ =>
    cases h
    rw [literal_below_literal hr]
  | .functions _ | .list _ | .tuple _ | .head _ | .symbol _ | .dictionary _ =>
    cases h
    rw [isSubdomain.eq_def]
    cases r with
    | anything => exact absurd rfl hr
    | _ => exact Iff.rfl
  | .union _ | .intersection _ | .value _ => cases h

/-- **Both ways to ask what lies above a domain give one answer.** -/
theorem below_named_iff_mem_ancestors {d : Domain} {b : Literal} (h : d.baseLiteral? = some b) :
    (∀ l, isSubdomain d (.literal l) = true ↔ l = b ∨ l ∈ d.ancestors) ∧
      d.ancestors.Nodup ∧ b ∉ d.ancestors := by
  rw [ancestors, h]
  dsimp only
  refine ⟨?_, b.nodup_ancestors, ?_⟩
  · intro l
    rw [Literal.mem_ancestors_iff, ← Literal.reaches_iff]
    by_cases hl : l = .anything
    · rw [hl]
      exact iff_of_true (isSubdomain_anything d) b.reaches_anything
    · rw [below_named_of_baseLiteral h hl, Literal.isBelow_iff]
  · rw [Literal.mem_ancestors_iff]
    exact b.not_above_self

theorem below_named_iff_mem_ancestors_tuple :
    let d := Domain.maybe (.sequence (.maybe (.tuple [.union [.literal .strings], .head "Sin"])))
    d.baseLiteral? = some .tuples ∧ isSubdomain d (.literal .collections) = true ∧
      ¬ isSubdomain d (.literal .lists) = true ∧ .tuples ∉ d.ancestors := by
  intro d
  obtain ⟨hbelow, -, hself⟩ := @below_named_iff_mem_ancestors d .tuples rfl
  exact ⟨rfl, (hbelow _).mpr (by decide +kernel), mt (hbelow _).mp (by decide +kernel), hself⟩

end Domain

end Formula
