import Mathlib.Data.List.Basic
import Formula.Proofs.Normalize.Frontier

/-!
  **What the two passes over operands give.**

  The pass over the calls of a head and the pass over sequences and groups obey the same laws
  (`IsPass`): there is nothing to do just if no operand is opened, nothing is left to do
  afterwards, and an invalid operand stays between what becomes of the operands in front of it
  and behind it.  The first pass gives just what is left when calls of the head are opened
  (`Opening.calls`).  The second one does so for sequences and groups (`Opening.groups`),
  tuples for empty groups apart, as long as no group has a second operand: it goes on with the
  first operand of a group (`Opening.bodies`), and whatever stands behind is lost.
-/

namespace Formula

namespace Tree

variable {α : Type}

/-- What a sequence or a group is opened to: all elements of a sequence, the first operand of a
    group. -/
def kept (e : Tree α) : List (Tree α) := if e.hasHead "Delimiter" then e.ops.take 1 else e.ops

/-- The operands of a group behind the first one. -/
def dropped (e : Tree α) : List (Tree α) := if e.hasHead "Delimiter" then e.ops.drop 1 else []

theorem kept_append_dropped (e : Tree α) : e.kept ++ e.dropped = e.ops := by
  unfold kept dropped
  split
  · exact List.take_append_drop 1 e.ops
  · exact List.append_nil _

theorem exists_of_hasHead {head : String} {e : Tree α} (h : e.hasHead head = true) :
    ∃ label ops, e = .call label head ops := by
  cases e with
  | call label name ops =>
    obtain rfl : name = head := by simpa [hasHead] using h
    exact ⟨label, ops, rfl⟩
  | _ => cases h

theorem exists_of_isValidCall {head : String} {e : Tree α} (h : e.isValidCall head = true) :
    ∃ label ops, e = .call label head ops := by
  rw [isValidCall, Bool.and_eq_true] at h
  exact exists_of_hasHead h.2

theorem exists_of_isGrouping {e : Tree α} (h : e.isGrouping = true) :
    ∃ label ops, e = .call label "Sequence" ops ∨ e = .call label "Delimiter" ops := by
  rw [isGrouping, Bool.and_eq_true, Bool.or_eq_true] at h
  rcases h.2 with h | h
  · obtain ⟨label, ops, heq⟩ := exists_of_hasHead h
    exact ⟨label, ops, Or.inl heq⟩
  · obtain ⟨label, ops, heq⟩ := exists_of_hasHead h
    exact ⟨label, ops, Or.inr heq⟩

theorem sizeOf_ops_lt (label : α) (head : String) (ops : List (Tree α)) :
    sizeOf ops < sizeOf (Tree.call label head ops) := by
  rw [Tree.call.sizeOf_spec]
  omega

theorem sizeOf_take_le (n : Nat) (es : List (Tree α)) : sizeOf (es.take n) ≤ sizeOf es := by
  induction es generalizing n with
  | nil => simp
  | cons e es ih =>
    cases n with
    | zero =>
      rw [List.take_zero, List.cons.sizeOf_spec, List.nil.sizeOf_spec]
      omega
    | succ n =>
      have := ih n
      rw [List.take_succ_cons, List.cons.sizeOf_spec, List.cons.sizeOf_spec]
      omega

end Tree

namespace Opening

variable {α : Type}

/-- Valid calls of `head` are opened to their operands. -/
def calls (head : String) : Opening α where
  opens := Tree.isValidCall head
  inside := Tree.ops
  smaller e h := by
    obtain ⟨label, ops, rfl⟩ := Tree.exists_of_isValidCall h
    exact Tree.sizeOf_ops_lt label head ops

/-- Valid sequences and groups are opened to their operands. -/
def groups : Opening α where
  opens := Tree.isGrouping
  inside := Tree.ops
  smaller e h := by
    obtain ⟨label, ops, rfl | rfl⟩ := Tree.exists_of_isGrouping h
    · exact Tree.sizeOf_ops_lt label "Sequence" ops
    · exact Tree.sizeOf_ops_lt label "Delimiter" ops

/-- Valid sequences and groups are opened, a group only to its first operand. -/
def bodies : Opening α where
  opens := Tree.isGrouping
  inside := Tree.kept
  smaller e h := by
    have hops := groups.smaller e h
    unfold Tree.kept
    split
    · exact Nat.lt_of_le_of_lt (Tree.sizeOf_take_le 1 e.ops) hops
    · exact hops

theorem groups_of_grouping {e : Tree α} (h : e.isGrouping = true) (rest : List (Tree α)) :
    groups.frontier (e :: rest) =
      groups.frontier e.kept ++ groups.frontier e.dropped ++ groups.frontier rest := by
  rw [← frontier_append, Tree.kept_append_dropped]
  exact frontier_cons_of_opens (o := groups) h rest

theorem groups_of_not {e : Tree α} (h : e.isGrouping = false) (rest : List (Tree α)) :
    groups.frontier (e :: rest) = e :: groups.frontier rest :=
  frontier_cons_of_not (o := groups) h rest

theorem bodies_of_grouping {e : Tree α} (h : e.isGrouping = true) (rest : List (Tree α)) :
    bodies.frontier (e :: rest) = bodies.frontier e.kept ++ bodies.frontier rest :=
  frontier_cons_of_opens (o := bodies) h rest

theorem bodies_of_not {e : Tree α} (h : e.isGrouping = false) (rest : List (Tree α)) :
    bodies.frontier (e :: rest) = e :: bodies.frontier rest :=
  frontier_cons_of_not (o := bodies) h rest

/-- Induction along the way into sequences and the first operands of groups. -/
@[elab_as_elim]
theorem bodies_induction {motive : List (Tree α) → Prop} (nil : motive [])
    (grouping : ∀ e rest, e.isGrouping = true → motive e.kept → motive rest → motive (e :: rest))
    (bare : ∀ e rest, e.isGrouping = false → motive rest → motive (e :: rest))
    (es : List (Tree α)) : motive es := by
  fun_induction frontier bodies es with
  | case1 => exact nil
  | case2 e rest hopen ihinside ihrest => exact grouping e rest hopen ihinside ihrest
  | case3 e rest hopen ihrest => exact bare e rest (Bool.eq_false_iff.mpr hopen) ihrest

end Opening

namespace Tree

/-! ### The pass over the calls of a head -/

theorem spread_of_isValidCall {head : String} {e : Expr} (h : e.isValidCall head = true) :
    spread head e = spreadAll head e.ops := by
  obtain ⟨_, ops, rfl⟩ := exists_of_isValidCall h
  exact spread_call h

/-- Calls of the head are opened until none is left. -/
theorem spreadAll_eq_frontier (head : String) (ops : List Expr) :
    spreadAll head ops = (Opening.calls head).frontier ops := by
  fun_induction Opening.frontier (Opening.calls head) ops with
  | case1 => rfl
  | case2 e rest hopen ihinside ihrest =>
    rw [spreadAll, spread_of_isValidCall hopen, ihrest]
    exact congrArg (· ++ _) ihinside
  | case3 e rest hopen ihrest =>
    rw [spreadAll, spread_of_not (Bool.eq_false_iff.mpr hopen), ihrest]
    rfl

/-! ### The pass over sequences and groups -/

/-- The pass over sequences and groups, where labels do not matter. -/
def ungrouped? (ops : List Expr) : Option (List Expr) := Id.run (flattenSequence? (pure ()) ops)

theorem ungrouped?_eq (ops : List Expr) :
    ungrouped? ops = if ops.any isGrouping then some (openedAll ops) else none := by
  unfold ungrouped? flattenSequence?
  split
  · rfl
  · rfl

theorem getD_ungrouped? (ops : List Expr) : (ungrouped? ops).getD ops = openedAll ops :=
  Engine.flattenSequence_getD (m := Id) ops

/-- A tuple without elements. -/
def isEmptyTuple (e : Expr) : Bool := e.hasHead "Tuple" && e.ops.isEmpty

/-- The expressions other than tuples without elements. -/
def filled (es : List Expr) : List Expr := es.filter fun e => !e.isEmptyTuple

@[simp] theorem filled_append (xs ys : List Expr) : filled (xs ++ ys) = filled xs ++ filled ys :=
  List.filter_append ..

theorem opened_of_isEmptySequence {e : Expr} (h : e.isEmptySequence = true) : opened e = [] := by
  rw [isEmptySequence, Bool.and_eq_true, List.isEmpty_iff] at h
  obtain ⟨_, ops, rfl⟩ := exists_of_hasHead h.1
  obtain rfl : ops = [] := h.2
  rfl

/-- A sequence or a group gives what is inside it, a group without content the empty tuple. -/
theorem opened_grouping {e : Expr} (h : e.isGrouping = true) :
    opened e = openedAll e.kept ∨ opened e = [unit] ∧ openedAll e.kept = [] := by
  have hvalid : e.valid = true := (Bool.and_eq_true_iff.mp h).1
  obtain ⟨_, ops, rfl | rfl⟩ := exists_of_isGrouping h
  · exact Or.inl (opened_sequence hvalid)
  · match ops with
    | [] => exact Or.inr ⟨opened_emptyGroup, rfl⟩
    | body :: more =>
      have hkept : openedAll (Tree.call () "Delimiter" (body :: more)).kept = opened body :=
        List.append_nil _
      rw [opened_group hvalid, hkept]
      split
      · rename_i hempty
        exact Or.inr ⟨rfl, opened_of_isEmptySequence hempty⟩
      · exact Or.inl rfl

/-- Tuples for empty groups apart, the pass goes into sequences and into the first operands of
    groups. -/
theorem filled_openedAll (ops : List Expr) :
    filled (openedAll ops) = filled (Opening.bodies.frontier ops) := by
  induction ops using Opening.bodies_induction with
  | nil => simp
  | grouping e rest h ihkept ihrest =>
    have hinside : filled (opened e) = filled (openedAll e.kept) := by
      rcases opened_grouping h with heq | ⟨hunit, hnone⟩
      · rw [heq]
      · rw [hunit, hnone]
        rfl
    rw [openedAll_cons, Opening.bodies_of_grouping h, filled_append, filled_append, hinside, ihkept,
      ihrest]
  | bare e rest h ihrest =>
    rw [openedAll_cons, opened_of_not_grouping h, Opening.bodies_of_not h, filled_append, ihrest,
      ← filled_append, List.singleton_append]

/-! ### What is lost of a group -/

theorem filled_sublist {xs ys : List Expr} (h : xs.Sublist ys) : (filled xs).Sublist (filled ys) :=
  h.filter _

/-- Nothing is met twice and nothing in another order. -/
theorem bodies_sublist_groups (ops : List Expr) :
    (Opening.bodies.frontier ops).Sublist (Opening.groups.frontier ops) := by
  induction ops using Opening.bodies_induction with
  | nil => simp
  | grouping e rest h ihkept ihrest =>
    rw [Opening.bodies_of_grouping h, Opening.groups_of_grouping h]
    exact (ihkept.trans (List.sublist_append_left _ _)).append ihrest
  | bare e rest h ihrest =>
    rw [Opening.bodies_of_not h, Opening.groups_of_not h]
    exact ihrest.cons_cons e

/-- No group that is met has anything but empty tuples behind its first operand. -/
def NothingBehind (ops : List Expr) : Prop :=
  ∀ e, Opening.groups.Reaches ops e → e.isGrouping = true →
    filled (Opening.groups.frontier e.dropped) = []

theorem nothingBehind_nil : NothingBehind [] :=
  fun e h => absurd h (Opening.not_reaches_nil e)

theorem nothingBehind_append {xs ys : List Expr} :
    NothingBehind (xs ++ ys) ↔ NothingBehind xs ∧ NothingBehind ys := by
  constructor
  · intro h
    exact ⟨fun e he => h e (Opening.reaches_append.mpr (Or.inl he)),
      fun e he => h e (Opening.reaches_append.mpr (Or.inr he))⟩
  · rintro ⟨hxs, hys⟩ e he
    exact (Opening.reaches_append.mp he).elim (hxs e) (hys e)

theorem nothingBehind_of_not_grouping {e : Expr} (h : e.isGrouping = false) :
    NothingBehind [e] := by
  intro x hx hgrouping
  rcases Opening.reaches_singleton.mp hx with rfl | ⟨hopen, -⟩
  · rw [h] at hgrouping
    cases hgrouping
  · exact absurd hopen (Bool.eq_false_iff.mp h)

theorem nothingBehind_of_none {ops : List Expr}
    (h : filled (Opening.groups.frontier ops) = []) : NothingBehind ops := by
  intro e he hgrouping
  rw [filled, List.filter_eq_nil_iff] at h ⊢
  intro x hx
  apply h x
  apply he.frontier_subset hgrouping
  have hinside : Opening.groups.inside e = e.kept ++ e.dropped := (kept_append_dropped e).symm
  rw [hinside, Opening.frontier_append]
  exact List.mem_append_right _ hx

theorem nothingBehind_grouping {e : Expr} (h : e.isGrouping = true) :
    NothingBehind [e] ↔
      NothingBehind e.kept ∧ filled (Opening.groups.frontier e.dropped) = [] := by
  have hinside : NothingBehind e.ops ↔ NothingBehind e.kept ∧ NothingBehind e.dropped := by
    rw [← nothingBehind_append, kept_append_dropped]
  constructor
  · intro hall
    refine ⟨(hinside.mp fun x hx => ?_).1, hall e (.here (List.mem_singleton_self e)) h⟩
    exact hall x (Opening.reaches_singleton.mpr (Or.inr ⟨h, hx⟩))
  · rintro ⟨hkept, hnone⟩ x hx hgrouping
    rcases Opening.reaches_singleton.mp hx with rfl | ⟨-, hwithin⟩
    · exact hnone
    · exact hinside.mpr ⟨hkept, nothingBehind_of_none hnone⟩ x hwithin hgrouping

/-- Parts of two lists make up the whole just if each of them is whole. -/
theorem append_eq_append_iff_of_sublist {β : Type} {xs xs' ys ys' : List β} (hx : xs.Sublist xs')
    (hy : ys.Sublist ys') : xs ++ ys = xs' ++ ys' ↔ xs = xs' ∧ ys = ys' := by
  constructor
  · intro h
    have hlength := congrArg List.length h
    rw [List.length_append, List.length_append] at hlength
    have hxlength := hx.length_le
    have hylength := hy.length_le
    exact ⟨hx.eq_of_length (by omega), hy.eq_of_length (by omega)⟩
  · rintro ⟨rfl, rfl⟩
    rfl

theorem filled_bodies_eq_iff (ops : List Expr) :
    filled (Opening.bodies.frontier ops) = filled (Opening.groups.frontier ops) ↔
      NothingBehind ops := by
  induction ops using Opening.bodies_induction with
  | nil => simp [nothingBehind_nil]
  | grouping e rest h ihkept ihrest =>
    have hkept := filled_sublist (bodies_sublist_groups e.kept)
    have hrest := filled_sublist (bodies_sublist_groups rest)
    -- the operands behind the first one have no part in what is kept
    have hdropped : filled (Opening.bodies.frontier e.kept) =
          filled (Opening.groups.frontier e.kept) ++ filled (Opening.groups.frontier e.dropped) ↔
        NothingBehind [e] := by
      rw [nothingBehind_grouping h, ← ihkept, eq_comm (b := []),
        ← append_eq_append_iff_of_sublist hkept (List.nil_sublist _), List.append_nil]
    rw [Opening.bodies_of_grouping h, Opening.groups_of_grouping h, filled_append, filled_append,
      filled_append, append_eq_append_iff_of_sublist (hkept.trans (List.sublist_append_left _ _))
        hrest, hdropped, ihrest, ← nothingBehind_append, List.singleton_append]
  | bare e rest h ihrest =>
    rw [Opening.bodies_of_not h, Opening.groups_of_not h, ← List.singleton_append,
      ← List.singleton_append (l := Opening.groups.frontier rest), filled_append, filled_append,
      List.append_cancel_left_eq, ihrest, ← List.singleton_append (l := rest),
      nothingBehind_append]
    exact (and_iff_right (nothingBehind_of_not_grouping h)).symm

/-! ### The laws of a pass -/

/-- A pass over operands that says whether there was anything to do, and if so gives the operands
    with everything opened that is to be opened. -/
structure IsPass (opens : Expr → Bool) (pass : List Expr → Option (List Expr)) : Prop where
  /-- There is nothing to do just if no operand is to be opened. -/
  eq_none_iff : ∀ ops, pass ops = none ↔ ∀ op ∈ ops, opens op = false
  /-- No operand is to be opened afterwards. -/
  settled : ∀ ops, ∀ op ∈ (pass ops).getD ops, opens op = false
  /-- There is nothing to do a second time. -/
  again : ∀ ops, pass ((pass ops).getD ops) = none
  /-- An invalid operand stays where it is between the others. -/
  stays : ∀ xs e zs, e.valid = false →
    (pass (xs ++ e :: zs)).getD (xs ++ e :: zs) = (pass xs).getD xs ++ e :: (pass zs).getD zs
  /-- The invalid operands are the same as before. -/
  invalid : ∀ ops, ((pass ops).getD ops).filter (fun e => !e.valid) = ops.filter fun e => !e.valid

/-- A pass that goes from operand to operand obeys the laws if an operand that is opened is valid
    and gives valid operands that are not to be opened. -/
theorem isPass_of_parts {opens : Expr → Bool} {pass : List Expr → Option (List Expr)}
    (parts : Expr → List Expr)
    (hpass : ∀ ops, pass ops = if ops.any opens then some (ops.flatMap parts) else none)
    (hbare : ∀ e, opens e = false → parts e = [e])
    (hsettled : ∀ e, ∀ x ∈ parts e, opens x = false)
    (hvalid : ∀ e, opens e = true → e.valid = true ∧ ∀ x ∈ parts e, x.valid = true) :
    IsPass opens pass := by
  have hnone : ∀ ops, pass ops = none ↔ ∀ op ∈ ops, opens op = false := by
    intro ops
    rw [hpass]
    simp
  have hgives : ∀ ops, (pass ops).getD ops = ops.flatMap parts := by
    intro ops
    rw [hpass]
    split
    · rfl
    · rename_i hany
      have hall : ∀ op ∈ ops, parts op = [op] := by
        intro op hop
        exact hbare op (by simpa using List.any_eq_false.mp (Bool.eq_false_iff.mpr hany) op hop)
      rw [List.flatMap_congr hall, List.flatMap_singleton', Option.getD_none]
  have hsettles : ∀ ops, ∀ op ∈ (pass ops).getD ops, opens op = false := by
    intro ops op hop
    rw [hgives, List.mem_flatMap] at hop
    obtain ⟨e, -, hx⟩ := hop
    exact hsettled e op hx
  refine ⟨hnone, hsettles, fun ops => (hnone _).mpr (hsettles ops), ?_, ?_⟩
  · intro xs e zs he
    have hclosed : opens e = false := by
      rw [← Bool.not_eq_true]
      intro hopen
      rw [(hvalid e hopen).1] at he
      cases he
    rw [hgives, hgives, hgives, List.flatMap_append, List.flatMap_cons, hbare e hclosed,
      List.singleton_append]
  · intro ops
    rw [hgives]
    induction ops with
    | nil => rfl
    | cons e ops ih =>
      rw [List.flatMap_cons, List.filter_append, ih, ← List.singleton_append (l := ops),
        List.filter_append]
      congr 1
      cases hopen : opens e with
      | true =>
        obtain ⟨he, hparts⟩ := hvalid e hopen
        rw [List.filter_eq_nil_iff.mpr fun x hx => by simp [hparts x hx],
          List.filter_eq_nil_iff.mpr fun x hx => by simp [List.mem_singleton.mp hx, he]]
      | false => rw [hbare e hopen]

theorem spreadAll_eq_flatMap (head : String) (ops : List Expr) :
    spreadAll head ops = ops.flatMap (spread head) := by
  induction ops with
  | nil => rfl
  | cons op ops ih => rw [spreadAll, ih, List.flatMap_cons]

theorem openedAll_eq_flatMap (ops : List Expr) : openedAll ops = ops.flatMap opened := by
  induction ops with
  | nil => rfl
  | cons op ops ih => rw [openedAll_cons, ih, List.flatMap_cons]

theorem isPass_flattenOps (head : String) : IsPass (isValidCall head) (flattenOps? head) := by
  apply isPass_of_parts (spread head)
  · intro ops
    rw [flattenOps?, spreadAll_eq_flatMap]
  · exact fun e h => spread_of_not h
  · exact fun e x hx => (mem_spread hx).1
  · intro e h
    have hvalid : e.valid = true := (Bool.and_eq_true_iff.mp h).1
    refine ⟨hvalid, fun x hx => ?_⟩
    obtain ⟨-, rfl | ⟨ops, hcall, hop⟩⟩ := mem_spread hx
    · exact hvalid
    · exact valid_of_mem (valid_of_occurs hcall hvalid) hop

theorem isPass_ungrouped : IsPass isGrouping ungrouped? := by
  apply isPass_of_parts opened
  · intro ops
    rw [ungrouped?_eq, openedAll_eq_flatMap]
  · exact fun e h => opened_of_not_grouping h
  · exact fun e x hx => (mem_opened hx).1
  · intro e h
    have hvalid : e.valid = true := (Bool.and_eq_true_iff.mp h).1
    refine ⟨hvalid, fun x hx => ?_⟩
    obtain ⟨-, rfl | hoccurs⟩ := mem_opened hx
    · rfl
    · exact valid_of_occurs hoccurs hvalid

/-! ### Main statements -/

/-- **Both passes do everything at once, and only what is to be done.**  They obey the laws of a
    pass, and the one over the calls of a head gives what is left when these are opened. -/
theorem passes_exact (head : String) :
    IsPass (isValidCall head) (flattenOps? head) ∧
      (∀ ops : List Expr, (flattenOps? head ops).getD ops = (Opening.calls head).frontier ops) ∧
      IsPass isGrouping ungrouped? := by
  refine ⟨isPass_flattenOps head, fun ops => ?_, isPass_ungrouped⟩
  rw [Engine.flattenOps_getD, spreadAll_eq_frontier]

/-- In `b+?`, `c+(d+e)` the first sum is invalid and stays, and the second one is opened down to
    its summands. -/
theorem passes_exact_invalid_sum :
    let broken : Expr := .call () "Add" [.symbol "b", errorCall .missing none none]
    let sum : Expr := .call () "Add" [.symbol "c", .call () "Add" [.symbol "d", .symbol "e"]]
    broken.valid = false ∧
      (flattenOps? "Add" ([] ++ broken :: [sum])).getD ([] ++ broken :: [sum]) =
        (flattenOps? "Add" []).getD [] ++ broken :: (flattenOps? "Add" [sum]).getD [sum] ∧
      (flattenOps? "Add" [sum]).getD [sum] = (Opening.calls "Add").frontier [sum] ∧
      (flattenOps? "Add" [sum]).getD [sum] = [.symbol "c", .symbol "d", .symbol "e"] :=
  ⟨by decide, (passes_exact "Add").1.stays [] _ [_] (by decide), (passes_exact "Add").2.1 [_], rfl⟩

/-- **The pass over sequences and groups duplicates nothing, and what it loses stands behind the
    first operand of a group.**  Tuples without elements apart, it gives what is left when sequences
    and groups are opened, in the same order, just if nothing but such tuples stands there. -/
theorem filled_ungrouped (ops : List Expr) :
    (filled ((ungrouped? ops).getD ops)).Sublist (filled (Opening.groups.frontier ops)) ∧
      (filled ((ungrouped? ops).getD ops) = filled (Opening.groups.frontier ops) ↔
        NothingBehind ops) := by
  rw [getD_ungrouped?, filled_openedAll]
  exact ⟨filled_sublist (bodies_sublist_groups ops), filled_bodies_eq_iff ops⟩

/-- A group with two operands. -/
def pairGroup : Expr := .call () "Delimiter" [.symbol "a", .symbol "b"]

/-- The second operand of a group is lost. -/
theorem ungrouped_pairGroup :
    ungrouped? [pairGroup] = some [.symbol "a"] ∧
      Opening.groups.frontier [pairGroup] = [.symbol "a", .symbol "b"] ∧
      filled ((ungrouped? [pairGroup]).getD [pairGroup]) ≠
        filled (Opening.groups.frontier [pairGroup]) := by
  have hpass : ungrouped? [pairGroup] = some [.symbol "a"] := rfl
  have hcontent : Opening.groups.frontier [pairGroup] = [.symbol "a", .symbol "b"] := by
    have hkept : Opening.groups.frontier pairGroup.kept = [.symbol "a"] := by
      show Opening.groups.frontier [.symbol "a"] = _
      rw [Opening.groups_of_not rfl, Opening.frontier_nil]
    have hdropped : Opening.groups.frontier pairGroup.dropped = [.symbol "b"] := by
      show Opening.groups.frontier [.symbol "b"] = _
      rw [Opening.groups_of_not rfl, Opening.frontier_nil]
    rw [Opening.groups_of_grouping (by decide), hkept, hdropped, Opening.frontier_nil]
    rfl
  refine ⟨hpass, hcontent, fun h => ?_⟩
  rw [hpass, hcontent] at h
  exact absurd (congrArg List.length h) (by decide)

end Tree

end Formula
