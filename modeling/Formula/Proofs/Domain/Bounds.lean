import Formula.Domain.Order
import Formula.Proofs.Domain.Equality
import Mathlib.Data.List.Perm.Basic

/-!
  **Unions and intersections as bounds.**

  A domain lies in an intersection if it lies in every member, and a union lies in a domain if every
  member of the union does.  The rules of comparison are tried in order, and an intersection on the
  left is taken apart before one on the right: it lies in a domain if one of its members alone does.
  So an intersection need not lie in an intersection of the same members in another order, and not
  in a union that has it as a member.  For the domains that are `meetless`, which means that no
  intersection stands at their top or among the members of a union there, the bounds are exact.
-/

namespace Formula.Domain

/-! ### Lists of domains -/

theorem allBelow_iff {ds : List Domain} {b : Domain} :
    allBelow ds b = true ↔ ∀ d ∈ ds, isSubdomain d b = true := by
  induction ds with
  | nil => simp [allBelow]
  | cons d ds ih => rw [allBelow, Bool.and_eq_true, ih, List.forall_mem_cons]

theorem anyBelow_iff {ds : List Domain} {b : Domain} :
    anyBelow ds b = true ↔ ∃ d ∈ ds, isSubdomain d b = true := by
  induction ds with
  | nil => simp [anyBelow]
  | cons d ds ih => rw [anyBelow, Bool.or_eq_true, ih, List.exists_mem_cons_iff]

theorem allAbove_iff {a : Domain} {ds : List Domain} :
    allAbove a ds = true ↔ ∀ d ∈ ds, isSubdomain a d = true := by
  induction ds with
  | nil => simp [allAbove]
  | cons d ds ih => rw [allAbove, Bool.and_eq_true, ih, List.forall_mem_cons]

theorem anyAbove_iff {a : Domain} {ds : List Domain} :
    anyAbove a ds = true ↔ ∃ d ∈ ds, isSubdomain a d = true := by
  induction ds with
  | nil => simp [anyAbove]
  | cons d ds ih => rw [anyAbove, Bool.or_eq_true, ih, List.exists_mem_cons_iff]

/-! ### The rules for unions and intersections -/

theorem isSubdomain_of_same {a b : Domain} (h : (a == b) = true) : isSubdomain a b = true := by
  rw [isSubdomain.eq_def, h, Bool.true_or]

theorem isSubdomain_anything (a : Domain) : isSubdomain a (.literal .anything) = true := by
  rw [isSubdomain, Bool.or_eq_true]
  exact Or.inr rfl

/-- A union on the left: all its members count. -/
theorem union_below_iff {ds : List Domain} {b : Domain} :
    isSubdomain (.union ds) b = true ↔
      (Domain.union ds == b) = true ∨ ∀ d ∈ ds, isSubdomain d b = true := by
  rw [isSubdomain.eq_def, Bool.or_eq_true]
  apply or_congr_right
  cases b with
  | literal l =>
    cases l with
    | anything => exact iff_of_true rfl fun d _ => isSubdomain_anything d
    | _ => exact allBelow_iff
  | _ => exact allBelow_iff

/-- An intersection on the left: one member is enough. -/
theorem intersection_below_iff {ds : List Domain} {b : Domain} (hb : b ≠ .literal .anything) :
    isSubdomain (.intersection ds) b = true ↔
      (Domain.intersection ds == b) = true ∨ ∃ d ∈ ds, isSubdomain d b = true := by
  rw [isSubdomain.eq_def, Bool.or_eq_true]
  apply or_congr_right
  cases b with
  | literal l =>
    cases l with
    | anything => exact absurd rfl hb
    | _ => exact anyBelow_iff
  | _ => exact anyBelow_iff

/-- Is the domain a union or an intersection? -/
def isCombined : Domain → Bool
  | .union _ => true
  | .intersection _ => true
  | _ => false

theorem below_union_iff {a : Domain} (ha : a.isCombined = false) {ds : List Domain} :
    isSubdomain a (.union ds) = true ↔ ∃ d ∈ ds, isSubdomain a d = true := by
  rw [isSubdomain.eq_def]
  cases a with
  | union _ => cases ha
  | intersection _ => cases ha
  | _ => exact anyAbove_iff

theorem below_intersection_iff {a : Domain} (ha : a.isCombined = false) {ds : List Domain} :
    isSubdomain a (.intersection ds) = true ↔ ∀ d ∈ ds, isSubdomain a d = true := by
  rw [isSubdomain.eq_def]
  cases a with
  | union _ => cases ha
  | intersection _ => cases ha
  | _ => exact allAbove_iff

/-! ### Domains without intersections at the top -/

mutual

/-- Is there no intersection at the top of the domain, nor among the members of a union there? -/
def meetless : Domain → Bool
  | .intersection _ => false
  | .union ds => allMeetless ds
  | _ => true

def allMeetless : List Domain → Bool
  | [] => true
  | d :: ds => d.meetless && allMeetless ds

end

theorem meetless_union_iff {ds : List Domain} :
    (Domain.union ds).meetless = true ↔ ∀ d ∈ ds, d.meetless = true := by
  rw [meetless]
  induction ds with
  | nil => simp [allMeetless]
  | cons d ds ih => rw [allMeetless, Bool.and_eq_true, ih, List.forall_mem_cons]

/-- Induction over the unions at the top of a domain without intersections there. -/
theorem meetless_induction {P : (a : Domain) → a.meetless = true → Prop}
    (plain : ∀ a ha, a.isCombined = false → P a ha)
    (union : ∀ as ha, (hless : ∀ x ∈ as, x.meetless = true) →
      (∀ x (hx : x ∈ as), P x (hless x hx)) → P (.union as) ha)
    (a : Domain) (ha : a.meetless = true) : P a ha := by
  match a with
  | .union as =>
    have hless : ∀ x ∈ as, x.meetless = true := meetless_union_iff.mp ha
    exact union as ha hless fun x hx => meetless_induction plain union x (hless x hx)
  | .intersection as => cases ha
  | .literal _ => exact plain _ ha rfl
  | .functions _ => exact plain _ ha rfl
  | .list _ => exact plain _ ha rfl
  | .tuple _ => exact plain _ ha rfl
  | .maybe _ => exact plain _ ha rfl
  | .sequence _ => exact plain _ ha rfl
  | .head _ => exact plain _ ha rfl
  | .symbol _ => exact plain _ ha rfl
  | .value _ => exact plain _ ha rfl
  | .dictionary _ => exact plain _ ha rfl
termination_by sizeOf a

/-- What lies in a member of a union lies in the union. -/
theorem below_union_of_mem {a : Domain} (ha : a.meetless = true) {b : Domain} {bs : List Domain}
    (hb : b ∈ bs) (h : isSubdomain a b = true) : isSubdomain a (.union bs) = true := by
  induction a, ha using meetless_induction generalizing b bs with
  | plain a _ hplain => exact (below_union_iff hplain).mpr ⟨b, hb, h⟩
  | union as _ _ ih =>
    rw [union_below_iff]
    refine Or.inr fun x hx => ?_
    rcases union_below_iff.mp h with hsame | hall
    · -- the member is an equal union, so `x` has a counterpart in it
      cases b with
      | union cs =>
        obtain ⟨c, hc, hxc⟩ := exists_same_of_mem (show sameAll as cs = true from hsame) hx
        exact ih x hx hb (ih x hx hc (isSubdomain_of_same hxc))
      | _ => cases hsame
    · exact ih x hx hb (hall x hx)

/-- A union lies in a domain exactly if all its members do. -/
theorem union_below_iff_of_meetless {as : List Domain} (has : ∀ x ∈ as, x.meetless = true)
    {b : Domain} : isSubdomain (.union as) b = true ↔ ∀ x ∈ as, isSubdomain x b = true := by
  rw [union_below_iff, or_iff_right_of_imp]
  intro hsame x hx
  cases b with
  | union bs =>
    obtain ⟨b, hb, hxb⟩ := exists_same_of_mem (show sameAll as bs = true from hsame) hx
    exact below_union_of_mem (has x hx) hb (isSubdomain_of_same hxb)
  | _ => cases hsame

/-! ### Intersections as greatest lower bounds -/

/-- What lies in an intersection lies in each of its members. -/
theorem below_of_mem_intersection {a d : Domain} {ds : List Domain} (hd : d ∈ ds)
    (h : isSubdomain a (.intersection ds) = true) : isSubdomain a d = true := by
  by_cases ha : a.isCombined = false
  · exact (below_intersection_iff ha).mp h d hd
  · match a with
    | .union as =>
      rcases union_below_iff.mp h with hsame | hall
      · cases hsame
      · exact union_below_iff.mpr (Or.inr fun x hx => below_of_mem_intersection hd (hall x hx))
    | .intersection as =>
      by_cases hd' : d = .literal .anything
      · rw [hd']
        exact isSubdomain_anything _
      · rw [intersection_below_iff hd']
        rcases (intersection_below_iff (by simp)).mp h with hsame | ⟨x, hx, hbelow⟩
        · obtain ⟨x, hx, hxd⟩ := exists_mem_same hsame hd
          exact Or.inr ⟨x, hx, isSubdomain_of_same hxd⟩
        · exact Or.inr ⟨x, hx, below_of_mem_intersection hd hbelow⟩
termination_by sizeOf a

/-- A domain without intersections at the top lies in an intersection if it lies in its members. -/
theorem below_intersection_of_forall {a : Domain} (ha : a.meetless = true) {ds : List Domain}
    (h : ∀ d ∈ ds, isSubdomain a d = true) : isSubdomain a (.intersection ds) = true := by
  induction a, ha using meetless_induction with
  | plain a _ hplain => exact (below_intersection_iff hplain).mpr h
  | union as _ has ih =>
    rw [union_below_iff_of_meetless has]
    exact fun x hx => ih x hx fun d hd => (union_below_iff_of_meetless has).mp (h d hd) x hx

/-- An intersection lies in another one, apart from equality, if one of its members alone lies in
    all members of the other. -/
theorem intersection_below_intersection_iff {as : List Domain}
    (has : ∀ x ∈ as, x.meetless = true) {ds : List Domain} :
    isSubdomain (.intersection as) (.intersection ds) = true ↔
      (Domain.intersection as == .intersection ds) = true ∨
        ∃ x ∈ as, ∀ d ∈ ds, isSubdomain x d = true := by
  rw [intersection_below_iff (by simp)]
  apply or_congr_right
  constructor
  · rintro ⟨x, hx, hbelow⟩
    exact ⟨x, hx, fun d hd => below_of_mem_intersection hd hbelow⟩
  · rintro ⟨x, hx, hall⟩
    exact ⟨x, hx, below_intersection_of_forall (has x hx) hall⟩

theorem below_intersection_perm {a : Domain} (ha : a.meetless = true) {ds ds' : List Domain}
    (hperm : ds.Perm ds') :
    isSubdomain a (.intersection ds) = isSubdomain a (.intersection ds') := by
  rw [Bool.eq_iff_iff]
  constructor
  · exact fun h => below_intersection_of_forall ha fun d hd =>
      below_of_mem_intersection (hperm.mem_iff.mpr hd) h
  · exact fun h => below_intersection_of_forall ha fun d hd =>
      below_of_mem_intersection (hperm.mem_iff.mp hd) h

theorem intersection_below_perm {b : Domain} (hb : ∀ bs, b ≠ .intersection bs)
    {ds ds' : List Domain} (hperm : ds.Perm ds') :
    isSubdomain (.intersection ds) b = isSubdomain (.intersection ds') b := by
  by_cases hany : b = .literal .anything
  · rw [hany, isSubdomain_anything, isSubdomain_anything]
  · have hne : ∀ as, (Domain.intersection as == b) = false := by
      intro as
      cases b with
      | intersection bs => exact absurd rfl (hb bs)
      | _ => rfl
    rw [Bool.eq_iff_iff, intersection_below_iff hany, intersection_below_iff hany, hne, hne]
    apply or_congr_right
    exact ⟨fun ⟨d, hd, h⟩ => ⟨d, hperm.mem_iff.mp hd, h⟩,
      fun ⟨d, hd, h⟩ => ⟨d, hperm.mem_iff.mpr hd, h⟩⟩

/-- An intersection as a lower bound of its members: it is the greatest one for the domains that
    have no intersection at the top, and for an intersection of those it takes one member that lies
    in all of them.  The order of the members matters only between two intersections. -/
theorem intersection_bounds (ds : List Domain) :
    (∀ a, isSubdomain a (.intersection ds) = true → ∀ d ∈ ds, isSubdomain a d = true) ∧
    (∀ a, a.meetless = true →
      (isSubdomain a (.intersection ds) = true ↔ ∀ d ∈ ds, isSubdomain a d = true)) ∧
    (∀ as, (∀ x ∈ as, x.meetless = true) →
      (isSubdomain (.intersection as) (.intersection ds) = true ↔
        (Domain.intersection as == .intersection ds) = true ∨
          ∃ x ∈ as, ∀ d ∈ ds, isSubdomain x d = true)) ∧
    ∀ ds', ds.Perm ds' →
      (∀ a, a.meetless = true →
        isSubdomain a (.intersection ds) = isSubdomain a (.intersection ds')) ∧
      ∀ b, (∀ bs, b ≠ .intersection bs) →
        isSubdomain (.intersection ds) b = isSubdomain (.intersection ds') b := by
  refine ⟨?_, ?_, ?_, ?_⟩
  · exact fun a h d hd => below_of_mem_intersection hd h
  · exact fun a ha => ⟨fun h d hd => below_of_mem_intersection hd h,
      below_intersection_of_forall ha⟩
  · exact fun as has => intersection_below_intersection_iff has
  · exact fun ds' hperm => ⟨fun a ha => below_intersection_perm ha hperm,
      fun b hb => intersection_below_perm hb hperm⟩

theorem intersection_bounds_strings_lists :
    isSubdomain (.union [.literal .nothing, .literal .void])
      (.intersection [.literal .strings, .literal .lists]) = true ∧
    isSubdomain (.intersection [.literal .strings, .literal .lists]) (.literal .collections) =
      isSubdomain (.intersection [.literal .lists, .literal .strings]) (.literal .collections) := by
  have hbounds := intersection_bounds [.literal .strings, .literal .lists]
  constructor
  · exact (hbounds.2.1 (.union [.literal .nothing, .literal .void]) rfl).mpr (by decide +kernel)
  · exact (hbounds.2.2.2 _ (List.Perm.swap _ _ [])).2 _ fun bs h => by cases h

/-- An intersection need not lie in the intersection of its members in another order, although it
    lies in each of them. -/
theorem intersection_not_below_swapped :
    (∀ d ∈ [Domain.literal .strings, .literal .integers],
      isSubdomain (.intersection [.literal .integers, .literal .strings]) d = true) ∧
    isSubdomain (.intersection [.literal .integers, .literal .strings])
      (.intersection [.literal .strings, .literal .integers]) = false := by
  decide +kernel

end Formula.Domain
