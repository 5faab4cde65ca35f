import Formula.Proofs.Domain.Bounds
import Mathlib.Data.List.Forall2

/-!
  **Comparison of domains as a preorder.**

  Among the domains that are built without optional domains, sequences and intersections, comparison
  is reflexive and transitive, and a union is the least upper bound of its members.  A comparison
  with a union on either side comes down to comparisons of members, so that in the end two domains
  are compared that are not unions.  For those `Under` says which rules are left: a rule for named
  domains on the right, and one rule for each constructor on both sides.
-/

namespace Formula

namespace Literal

theorem mem_all (l : Literal) : l ∈ Literal.all := by
  cases l <;> decide

theorem anything_isBelow {r : Literal} (h : Literal.anything.isBelow r = true) : r = .anything := by
  have hall : ∀ r ∈ Literal.all, Literal.anything.isBelow r = true → r = .anything := by
    decide +kernel
  exact hall r (mem_all r) h

theorem isBelow_trans {a b c : Literal} (hab : a.isBelow b = true) (hbc : b.isBelow c = true) :
    a.isBelow c = true := by
  have hall : ∀ a ∈ Literal.all, ∀ b ∈ Literal.all, a.isBelow b = true →
      ∀ c ∈ Literal.all, b.isBelow c = true → a.isBelow c = true := by
    decide +kernel
  exact hall a (mem_all a) b (mem_all b) hab c (mem_all c) hbc

theorem isBelow_self (l : Literal) : l.isBelow l = true := by
  rw [isBelow, beq_self_eq_true, Bool.true_or]

end Literal

namespace Domain

/-! ### Plain domains -/

mutual

/-- Is the domain built without optional domains, sequences and intersections, at every level? -/
def plain : Domain → Bool
  | .literal _ => true
  | .head _ => true
  | .symbol _ => true
  | .value _ => true
  | .list d => d.plain
  | .dictionary d => d.plain
  | .functions ds => allPlain ds
  | .tuple ds => allPlain ds
  | .union ds => allPlain ds
  | .maybe _ => false
  | .sequence _ => false
  | .intersection _ => false

def allPlain : List Domain → Bool
  | [] => true
  | d :: ds => d.plain && allPlain ds

end

theorem allPlain_iff {ds : List Domain} : allPlain ds = true ↔ ∀ d ∈ ds, d.plain = true := by
  induction ds with
  | nil => simp [allPlain]
  | cons d ds ih => rw [allPlain, Bool.and_eq_true, ih, List.forall_mem_cons]

/-- The domains that a domain is made of. -/
def parts : Domain → List Domain
  | .list d => [d]
  | .maybe d => [d]
  | .sequence d => [d]
  | .dictionary d => [d]
  | .functions ds => ds
  | .tuple ds => ds
  | .union ds => ds
  | .intersection ds => ds
  | _ => []

theorem sizeOf_lt_of_mem_parts {d x : Domain} (hx : x ∈ d.parts) : sizeOf x < sizeOf d := by
  cases d with
  | list d | maybe d | sequence d | dictionary d =>
    obtain rfl := List.mem_singleton.mp hx
    simp
  | functions ds | tuple ds | union ds | intersection ds =>
    have hlt := List.sizeOf_lt_of_mem (show x ∈ ds from hx)
    simp only [functions.sizeOf_spec, tuple.sizeOf_spec, union.sizeOf_spec,
      intersection.sizeOf_spec]
    omega
  | _ => cases hx

theorem plain_of_mem_parts {d x : Domain} (hd : d.plain = true) (hx : x ∈ d.parts) :
    x.plain = true := by
  cases d with
  | list d | dictionary d =>
    obtain rfl := List.mem_singleton.mp hx
    exact hd
  | functions ds | tuple ds | union ds => exact allPlain_iff.mp hd x hx
  | maybe d | sequence d | intersection d => cases hd
  | _ => cases hx

theorem meetless_of_plain {d : Domain} (h : d.plain = true) : d.meetless = true := by
  match d with
  | .union ds =>
    have hmem : ∀ x ∈ ds, x.meetless = true := fun x hx =>
      meetless_of_plain (allPlain_iff.mp h x hx)
    exact meetless_union_iff.mpr hmem
  | .intersection _ => cases h
  | .literal _ => rfl
  | .functions _ => rfl
  | .list _ => rfl
  | .tuple _ => rfl
  | .maybe _ => rfl
  | .sequence _ => rfl
  | .head _ => rfl
  | .symbol _ => rfl
  | .value _ => rfl
  | .dictionary _ => rfl
termination_by sizeOf d

theorem union_or_not_combined {a : Domain} (ha : a.plain = true) :
    (∃ ds, a = .union ds) ∨ a.isCombined = false := by
  cases a with
  | union ds => exact Or.inl ⟨ds, rfl⟩
  | intersection ds => cases ha
  | _ => exact Or.inr rfl

/-! ### Domains that are not unions -/

theorem pointwise_iff {as bs : List Domain} :
    pointwise as bs = true ↔ List.Forall₂ (fun a b => isSubdomain a b = true) as bs := by
  induction as generalizing bs with
  | nil => cases bs <;> simp [pointwise]
  | cons a as ih =>
    cases bs with
    | nil => simp [pointwise]
    | cons b bs => rw [pointwise, Bool.and_eq_true, ih, List.forall₂_cons]

theorem list_below_list_iff {a b : Domain} :
    isSubdomain (.list a) (.list b) = true ↔ isSubdomain a b = true := by
  rw [isSubdomain, Bool.or_eq_true]
  exact or_iff_right_of_imp fun h => isSubdomain_of_same (a := a) (b := b) h

theorem dictionary_below_dictionary_iff {a b : Domain} :
    isSubdomain (.dictionary a) (.dictionary b) = true ↔ isSubdomain a b = true := by
  rw [isSubdomain, Bool.or_eq_true]
  exact or_iff_right_of_imp fun h => isSubdomain_of_same (a := a) (b := b) h

theorem tuple_below_tuple_iff {as bs : List Domain} :
    isSubdomain (.tuple as) (.tuple bs) = true ↔
      List.Forall₂ (fun a b => isSubdomain a b = true) as bs := by
  rw [isSubdomain, Bool.or_eq_true, ← pointwise_iff]
  exact or_iff_right_of_imp fun h =>
    pointwise_iff.mpr ((sameAll_iff.mp h).imp fun _ _ => isSubdomain_of_same)

theorem functions_below_functions (as bs : List Domain) :
    isSubdomain (.functions as) (.functions bs) = true := by
  rw [isSubdomain, Bool.or_true]

/-- A named domain on the right is compared with what the left one comes down to. -/
theorem below_named_iff {a : Domain} (ha : a.plain = true) (hcomb : a.isCombined = false)
    {r : Literal} (hr : r ≠ .anything) :
    isSubdomain a (.literal r) = true ↔ ∃ l, a.baseLiteral? = some l ∧ l.isBelow r = true := by
  rw [isSubdomain, Bool.or_eq_true, or_iff_right_of_imp]
  · cases a.baseLiteral? <;> simp
  · intro hsame
    cases a with
    | literal l =>
      have hl : l = r := eq_of_beq hsame
      exact hl ▸ Literal.isBelow_self l
    | _ => cases hsame
  · exact hr
  all_goals
    rintro d rfl
    first | cases ha | cases hcomb

theorem literal_below_literal {l r : Literal} (hr : r ≠ .anything) :
    isSubdomain (.literal l) (.literal r) = l.isBelow r := by
  rw [Bool.eq_iff_iff, below_named_iff rfl rfl hr]
  simp [baseLiteral?]

/-- When one plain domain that is not a union lies in another. -/
inductive Under : Domain → Domain → Prop where
  | anything {a : Domain} : Under a (.literal .anything)
  | named {a : Domain} {l r : Literal} (hbase : a.baseLiteral? = some l)
      (hbelow : l.isBelow r = true) : Under a (.literal r)
  | list {a b : Domain} (h : isSubdomain a b = true) : Under (.list a) (.list b)
  | dictionary {a b : Domain} (h : isSubdomain a b = true) : Under (.dictionary a) (.dictionary b)
  | tuple {as bs : List Domain}
      (h : List.Forall₂ (fun a b => isSubdomain a b = true) as bs) : Under (.tuple as) (.tuple bs)
  | functions {as bs : List Domain} : Under (.functions as) (.functions bs)
  | head {name : String} : Under (.head name) (.head name)
  | symbol {name : String} : Under (.symbol name) (.symbol name)
  | value {e f : Expr} (h : (e == f) = true) : Under (.value e) (.value f)

theorem isSubdomain_of_under {a b : Domain} (ha : a.plain = true) (hcomb : a.isCombined = false)
    (h : Under a b) : isSubdomain a b = true := by
  cases h with
  | anything => exact isSubdomain_anything a
  | @named _ l r hbase hbelow =>
    by_cases hr : r = .anything
    · exact hr ▸ isSubdomain_anything a
    · exact (below_named_iff ha hcomb hr).mpr ⟨l, hbase, hbelow⟩
  | list h => exact list_below_list_iff.mpr h
  | dictionary h => exact dictionary_below_dictionary_iff.mpr h
  | tuple h => exact tuple_below_tuple_iff.mpr h
  | functions => exact functions_below_functions _ _
  | head => exact isSubdomain_of_same (same_self rfl)
  | symbol => exact isSubdomain_of_same (same_self rfl)
  | value h => exact isSubdomain_of_same h

/-- A domain that is not named has above it only domains of its own constructor. -/
theorem constructor_eq_of_below {a b : Domain} (ha : a.plain = true) (hb : b.plain = true)
    (hacomb : a.isCombined = false) (hbcomb : b.isCombined = false) (hnamed : b.literal? = none)
    (h : isSubdomain a b = true) : a.constructor? = b.constructor? := by
  rw [isSubdomain.eq_def] at h
  cases b with
  | literal r => cases hnamed
  | union bs => cases hbcomb
  | intersection bs => cases hbcomb
  | maybe b => cases hb
  | sequence b => cases hb
  | _ =>
    cases a with
    | union as => cases hacomb
    | intersection as => cases hacomb
    | maybe a => cases ha
    | sequence a => cases ha
    | _ => first | rfl | cases h

theorem under_of_isSubdomain {a b : Domain} (ha : a.plain = true) (hb : b.plain = true)
    (hacomb : a.isCombined = false) (hbcomb : b.isCombined = false)
    (h : isSubdomain a b = true) : Under a b := by
  have hcons := constructor_eq_of_below ha hb hacomb hbcomb
  cases b with
  | literal r =>
    by_cases hr : r = .anything
    · exact hr ▸ .anything
    · obtain ⟨l, hbase, hbelow⟩ := (below_named_iff ha hacomb hr).mp h
      exact .named hbase hbelow
  | list b =>
    cases a with
    | list a => exact .list (list_below_list_iff.mp h)
    | _ => cases hcons rfl h
  | dictionary b =>
    cases a with
    | dictionary a => exact .dictionary (dictionary_below_dictionary_iff.mp h)
    | _ => cases hcons rfl h
  | tuple bs =>
    cases a with
    | tuple as => exact .tuple (tuple_below_tuple_iff.mp h)
    | _ => cases hcons rfl h
  | functions bs =>
    cases a with
    | functions as => exact .functions
    | _ => cases hcons rfl h
  | head name =>
    cases a with
    | head f =>
      rw [isSubdomain.eq_def, Bool.or_false] at h
      have hname : f = name := eq_of_beq h
      exact hname ▸ .head
    | _ => cases hcons rfl h
  | symbol name =>
    cases a with
    | symbol f =>
      rw [isSubdomain.eq_def, Bool.or_false] at h
      have hname : f = name := eq_of_beq h
      exact hname ▸ .symbol
    | _ => cases hcons rfl h
  | value e =>
    cases a with
    | value f =>
      rw [isSubdomain.eq_def, Bool.or_false] at h
      exact .value h
    | _ => cases hcons rfl h
  | union bs => cases hbcomb
  | intersection bs => cases hbcomb
  | maybe b => cases hb
  | sequence b => cases hb

/-! ### Transitivity -/

/-- A domain comes down to what the domains above it come down to, or to something below. -/
theorem Under.named_trans {a b : Domain} (hab : Under a b) {l r : Literal}
    (hbase : b.baseLiteral? = some l) (hbelow : l.isBelow r = true) : Under a (.literal r) := by
  cases hab with
  | anything =>
    cases hbase
    exact Literal.anything_isBelow hbelow ▸ .anything
  | named hbase' hbelow' =>
    cases hbase
    exact .named hbase' (Literal.isBelow_trans hbelow' hbelow)
  | value h => cases hbase
  | _ => exact .named hbase hbelow

theorem forall₂_below_trans {as bs cs : List Domain}
    (htrans : ∀ a ∈ as, ∀ b ∈ bs, ∀ c ∈ cs,
      isSubdomain a b = true → isSubdomain b c = true → isSubdomain a c = true)
    (hab : List.Forall₂ (fun a b => isSubdomain a b = true) as bs)
    (hbc : List.Forall₂ (fun b c => isSubdomain b c = true) bs cs) :
    List.Forall₂ (fun a c => isSubdomain a c = true) as cs := by
  induction hab generalizing cs with
  | nil => exact hbc
  | @cons a b as bs hfirst _ ih =>
    cases hbc with
    | @cons _ c _ cs hsecond hrest =>
      refine .cons (htrans a (by simp) b (by simp) c (by simp) hfirst hsecond) (ih ?_ hrest)
      exact fun a ha b hb c hc => htrans a (by simp [ha]) b (by simp [hb]) c (by simp [hc])

theorem Under.trans {a b c : Domain}
    (htrans : ∀ x ∈ a.parts, ∀ y ∈ b.parts, ∀ z ∈ c.parts,
      isSubdomain x y = true → isSubdomain y z = true → isSubdomain x z = true)
    (hab : Under a b) (hbc : Under b c) : Under a c := by
  cases hbc with
  | anything => exact .anything
  | named hbase hbelow => exact hab.named_trans hbase hbelow
  | list h =>
    cases hab with
    | list h' =>
      exact .list (htrans _ List.mem_cons_self _ List.mem_cons_self _ List.mem_cons_self h' h)
  | dictionary h =>
    cases hab with
    | dictionary h' =>
      exact .dictionary
        (htrans _ List.mem_cons_self _ List.mem_cons_self _ List.mem_cons_self h' h)
  | tuple h =>
    cases hab with
    | tuple h' => exact .tuple (forall₂_below_trans htrans h' h)
  | functions =>
    cases hab with
    | functions => exact .functions
  | head => exact hab
  | symbol => exact hab
  | value h =>
    cases hab with
    | value h' => exact .value (Tree.same_trans h' h)

/-- Comparison is transitive on plain domains. -/
theorem isSubdomain_trans {a b c : Domain} (ha : a.plain = true) (hb : b.plain = true)
    (hc : c.plain = true) (hab : isSubdomain a b = true) (hbc : isSubdomain b c = true) :
    isSubdomain a c = true := by
  -- the induction is on the three domains together, since any of them may be the one taken apart
  induction hn : sizeOf a + sizeOf b + sizeOf c using Nat.strongRecOn generalizing a b c with
  | _ n ih =>
  subst hn
  have hless : ∀ {ds : List Domain}, (Domain.union ds).plain = true →
      ∀ x ∈ ds, x.meetless = true := fun hds x hx =>
    meetless_of_plain (plain_of_mem_parts hds hx)
  rcases union_or_not_combined ha with ⟨as, rfl⟩ | hacomb
  · rw [union_below_iff_of_meetless (hless ha)] at hab ⊢
    intro x hx
    have hsize := sizeOf_lt_of_mem_parts (d := .union as) hx
    exact ih _ (by omega) (plain_of_mem_parts ha hx) hb hc (hab x hx) hbc rfl
  rcases union_or_not_combined hb with ⟨bs, rfl⟩ | hbcomb
  · obtain ⟨y, hy, hay⟩ := (below_union_iff hacomb).mp hab
    have hyc := (union_below_iff_of_meetless (hless hb)).mp hbc y hy
    have hsize := sizeOf_lt_of_mem_parts (d := .union bs) hy
    exact ih _ (by omega) ha (plain_of_mem_parts hb hy) hc hay hyc rfl
  rcases union_or_not_combined hc with ⟨cs, rfl⟩ | hccomb
  · obtain ⟨z, hz, hbz⟩ := (below_union_iff hbcomb).mp hbc
    have hsize := sizeOf_lt_of_mem_parts (d := .union cs) hz
    have haz := ih _ (by omega) ha hb (plain_of_mem_parts hc hz) hab hbz rfl
    exact below_union_of_mem (meetless_of_plain ha) hz haz
  have hunder : Under a b := under_of_isSubdomain ha hb hacomb hbcomb hab
  have hunder' : Under b c := under_of_isSubdomain hb hc hbcomb hccomb hbc
  refine isSubdomain_of_under ha hacomb (hunder.trans (fun x hx y hy z hz => ?_) hunder')
  have hxs := sizeOf_lt_of_mem_parts hx
  have hys := sizeOf_lt_of_mem_parts hy
  have hzs := sizeOf_lt_of_mem_parts hz
  exact fun hxy hyz => ih _ (by omega) (plain_of_mem_parts ha hx) (plain_of_mem_parts hb hy)
    (plain_of_mem_parts hc hz) hxy hyz rfl

/-- Comparison of plain domains is a preorder in which a union is the least upper bound of its
    members. -/
theorem isSubdomain_preorder_union {a b c : Domain} {ds : List Domain} (ha : a.plain = true)
    (hb : b.plain = true) (hc : c.plain = true) (hds : ∀ d ∈ ds, d.plain = true)
    (hanan : a.hasNaN = false) (hdsnan : ∀ d ∈ ds, d.hasNaN = false) :
    isSubdomain a a = true ∧
    (isSubdomain a b = true → isSubdomain b c = true → isSubdomain a c = true) ∧
    (∀ d ∈ ds, isSubdomain d (.union ds) = true) ∧
    (isSubdomain (.union ds) b = true ↔ ∀ d ∈ ds, isSubdomain d b = true) := by
  have hless : ∀ d ∈ ds, d.meetless = true := fun d hd => meetless_of_plain (hds d hd)
  refine ⟨isSubdomain_of_same (same_self hanan), isSubdomain_trans ha hb hc, fun d hd => ?_,
    union_below_iff_of_meetless hless⟩
  exact below_union_of_mem (hless d hd) hd (isSubdomain_of_same (same_self (hdsnan d hd)))

theorem isSubdomain_preorder_union_tuples :
    isSubdomain (.list (.tuple [.union [.literal .integers, .head "Sin"]]))
      (.union [.literal .strings, .literal .collections]) = true ∧
    isSubdomain (.tuple [.value (.number (.integer 1))])
      (.union [.literal .strings, .tuple [.value (.number (.integer 1))]]) = true := by
  have hbounds := @isSubdomain_preorder_union
    (.list (.tuple [.union [.literal .integers, .head "Sin"]])) (.literal .lists)
    (.union [.literal .strings, .literal .collections])
    [.literal .strings, .tuple [.value (.number (.integer 1))]]
    (by decide) (by decide) (by decide) (by decide) (by decide) (by decide)
  exact ⟨hbounds.2.1 (by decide +kernel) (by decide +kernel), hbounds.2.2.1 _ (by simp)⟩

end Domain

end Formula
