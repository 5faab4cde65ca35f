import Formula.Proofs.Normalize.Passes
import Formula.Proofs.Reader.NormalForm

/-!
  **Calls inside calls of the same head.**

  Building a call of an associative head may be done in steps: a call that was built before gives
  its operands wherever it stands among the others.  The same holds for sequences.

  The call that is built is in normal form, and building it again from its own operands changes
  nothing, if its operands were built that way as well.  Of operands put together by hand this is
  not true.  Sequences and groups are opened before the calls of the head are, so one that is an
  operand of such a call comes to the surface too late (`HidesGrouping`), and no other one does.
-/

namespace Formula

namespace Tree

/-! ### Sequences and groups are used up -/

mutual

/-- How many calls of `Sequence` and `Delimiter` there are in an expression, heads apart. -/
def groupCount : Expr → Nat
  | .call _ head ops =>
    (if head = "Sequence" ∨ head = "Delimiter" then 1 else 0) + groupCountAll ops
  | .applied _ _ ops => groupCountAll ops
  | _ => 0

def groupCountAll : List Expr → Nat
  | [] => 0
  | op :: rest => groupCount op + groupCountAll rest

end

@[simp] theorem groupCountAll_nil : groupCountAll [] = 0 := rfl

@[simp] theorem groupCountAll_cons (op : Expr) (ops : List Expr) :
    groupCountAll (op :: ops) = groupCount op + groupCountAll ops := rfl

@[simp] theorem groupCountAll_append (xs ys : List Expr) :
    groupCountAll (xs ++ ys) = groupCountAll xs + groupCountAll ys := by
  induction xs with
  | nil => simp
  | cons x xs ih => simp [ih, Nat.add_assoc]

theorem groupCountAll_ops_le (e : Expr) : groupCountAll e.ops ≤ groupCount e := by
  cases e with
  | call label head ops =>
    rw [groupCount, Tree.ops]
    omega
  | applied label head ops => exact Nat.le_refl _
  | number value => exact Nat.zero_le _
  | symbol name => exact Nat.zero_le _
  | text value => exact Nat.zero_le _

theorem groupCountAll_ops_lt {e : Expr} (h : e.isGrouping = true) :
    groupCountAll e.ops < groupCount e := by
  obtain ⟨_, ops, rfl | rfl⟩ := exists_of_isGrouping h
  · rw [groupCount, Tree.ops, if_pos (Or.inl rfl)]
    omega
  · rw [groupCount, Tree.ops, if_pos (Or.inr rfl)]
    omega

/-- Opening calls of the head takes nothing in. -/
theorem groupCountAll_spreadAll_le (head : String) (ops : List Expr) :
    groupCountAll (spreadAll head ops) ≤ groupCountAll ops := by
  rw [spreadAll_eq_frontier]
  fun_induction Opening.frontier (Opening.calls head) ops with
  | case1 => exact Nat.le_refl 0
  | case2 e rest hopen ihinside ihrest =>
    have hinside : groupCountAll ((Opening.calls head).inside e) ≤ groupCount e :=
      groupCountAll_ops_le e
    rw [groupCountAll_append, groupCountAll_cons]
    omega
  | case3 e rest hopen ihrest =>
    rw [groupCountAll_cons, groupCountAll_cons]
    omega

/-- Something that is opened is used up. -/
theorem groupCountAll_opened {e : Expr} (h : e.isGrouping = true)
    (hkept : groupCountAll (openedAll e.kept) ≤ groupCountAll e.kept) :
    groupCountAll (opened e) < groupCount e := by
  have hops : groupCountAll e.kept + groupCountAll e.dropped < groupCount e := by
    rw [← groupCountAll_append, kept_append_dropped]
    exact groupCountAll_ops_lt h
  rcases opened_grouping h with heq | ⟨hunit, -⟩
  · rw [heq]
    omega
  · have hnone : groupCountAll [unit] = 0 := rfl
    rw [hunit, hnone]
    omega

theorem groupCountAll_openedAll_le (ops : List Expr) :
    groupCountAll (openedAll ops) ≤ groupCountAll ops := by
  induction ops using Opening.bodies_induction with
  | nil => exact Nat.le_refl 0
  | grouping e rest h ihkept ihrest =>
    have hopened := groupCountAll_opened h ihkept
    rw [openedAll_cons, groupCountAll_append, groupCountAll_cons]
    omega
  | bare e rest h ihrest =>
    rw [openedAll_cons, opened_of_not_grouping h, groupCountAll_append, groupCountAll_cons,
      groupCountAll_cons, groupCountAll_nil]
    omega

theorem groupCountAll_openedAll_lt {ops : List Expr} {op : Expr} (hop : op ∈ ops)
    (h : op.isGrouping = true) : groupCountAll (openedAll ops) < groupCountAll ops := by
  obtain ⟨front, rest, rfl⟩ := List.append_of_mem hop
  have hfront := groupCountAll_openedAll_le front
  have hrest := groupCountAll_openedAll_le rest
  have hopened := groupCountAll_opened h (groupCountAll_openedAll_le op.kept)
  simp only [openedAll_append, openedAll_cons, groupCountAll_append, groupCountAll_cons]
  omega

/-! ### Sequences and groups that come to the surface -/

/-- Among what the operands give there is a valid call of the head, and a sequence or a group is
    reached in it through calls of the head only. -/
def HidesGrouping (head : String) (ops : List Expr) : Prop :=
  ∃ call group, Opening.bodies.Reaches ops call ∧ call.isGrouping = false ∧
    call.isValidCall head = true ∧ (Opening.calls head).Reaches call.ops group ∧
    group.isGrouping = true

/-- What the operands give, tuples without elements apart. -/
theorem mem_openedAll_iff {ops : List Expr} {x : Expr} (hx : x.isEmptyTuple = false) :
    x ∈ openedAll ops ↔ Opening.bodies.Reaches ops x ∧ x.isGrouping = false := by
  have hfilled : ∀ es : List Expr, x ∈ filled es ↔ x ∈ es := by
    intro es
    rw [filled, List.mem_filter, hx]
    exact and_iff_left rfl
  rw [← hfilled, filled_openedAll, hfilled]
  exact Opening.mem_frontier

theorem isEmptyTuple_of_reaches {o : Opening Unit} {e x : Expr} (h : o.Reaches e.ops x) :
    e.isEmptyTuple = false := by
  rw [isEmptyTuple, Bool.and_eq_false_iff]
  right
  cases hops : e.ops with
  | nil =>
    rw [hops] at h
    exact absurd h (Opening.not_reaches_nil x)
  | cons op ops => rfl

theorem exists_grouping_spreadAll {head : String} (hgroup : head ≠ "Delimiter")
    (ops : List Expr) :
    (∃ x ∈ spreadAll head (openedAll ops), x.isGrouping = true) ↔ HidesGrouping head ops := by
  rw [spreadAll_eq_frontier]
  constructor
  · rintro ⟨group, hmem, hgrouping⟩
    obtain ⟨hreach, -⟩ := Opening.mem_frontier.mp hmem
    cases hreach with
    | here mem =>
      rw [(mem_openedAll mem).1] at hgrouping
      cases hgrouping
    | deeper mem opened within =>
      obtain ⟨hcall, hbare⟩ := (mem_openedAll_iff (isEmptyTuple_of_reaches within)).mp mem
      exact ⟨_, group, hcall, hbare, opened, within, hgrouping⟩
  · rintro ⟨call, group, hcall, hbare, hvalid, hreach, hgrouping⟩
    refine ⟨group, Opening.mem_frontier.mpr ⟨?_, ?_⟩, hgrouping⟩
    · exact .deeper ((mem_openedAll_iff (isEmptyTuple_of_reaches hreach)).mpr ⟨hcall, hbare⟩) hvalid
        hreach
    · -- the head is not that of a group and, as the call is no sequence, not that of a sequence
      show group.isValidCall head = false
      have hsequence : head ≠ "Sequence" := by
        rintro rfl
        rw [isGrouping_eq, hvalid] at hbare
        cases hbare
      obtain ⟨_, inner, rfl | rfl⟩ := exists_of_isGrouping hgrouping
      · exact isValidCall_of_headName (by simpa [headName?] using hsequence.symm)
      · exact isValidCall_of_headName (by simpa [headName?] using hgroup.symm)

end Tree

namespace Engine

variable {engine : Engine Unit} {head : String}

/-! ### Normal operands -/

theorem normalCall_iff {ops : List Expr} :
    engine.NormalCall head ops ↔
      (∀ op ∈ ops, op.isGrouping = false) ∧
        (engine.isAssociative head = true → ∀ op ∈ ops, op.isValidCall head = false) := by
  simp only [NormalCall, Tree.isGrouping_eq, Bool.or_eq_false_iff]

/-- Of an associative head no call is left among the operands. -/
theorem isValidCall_normalOps (hgroup : head ≠ "Delimiter")
    (hassociative : engine.isAssociative head = true) (ops : List Expr) :
    ∀ op ∈ engine.normalOps head ops, op.isValidCall head = false := by
  intro op hop
  rw [normalOps, if_neg hgroup, if_pos hassociative] at hop
  exact (Tree.mem_spreadAll hop).1

theorem normalCall_normalOps_iff (hgroup : head ≠ "Delimiter") (ops : List Expr) :
    engine.NormalCall head (engine.normalOps head ops) ↔
      ¬ (engine.isAssociative head = true ∧ Tree.HidesGrouping head ops) := by
  rw [normalCall_iff, and_iff_left fun h => isValidCall_normalOps hgroup h ops]
  by_cases hassociative : engine.isAssociative head = true
  · have hops : engine.normalOps head ops = Tree.spreadAll head (Tree.openedAll ops) := by
      rw [normalOps, if_neg hgroup, if_pos hassociative]
    rw [hops, ← Tree.exists_grouping_spreadAll hgroup, and_iff_right hassociative]
    simp
  · have hops : engine.normalOps head ops = Tree.openedAll ops := by
      rw [normalOps, if_neg hgroup, if_neg hassociative]
    rw [hops]
    exact iff_of_true (fun op hop => (Tree.mem_openedAll hop).1) fun h => hassociative h.1

/-- Operands stay as they are just if they are normal: a sequence or a group among them would be
    used up. -/
theorem normalOps_eq_self_iff (hgroup : head ≠ "Delimiter") {ops : List Expr}
    (hcalls : engine.isAssociative head = true → ∀ op ∈ ops, op.isValidCall head = false) :
    engine.normalOps head ops = ops ↔ engine.NormalCall head ops := by
  rw [normalCall_iff, and_iff_left hcalls]
  constructor
  · intro heq op hop
    rw [← Bool.not_eq_true]
    intro hgrouping
    have hlt := Tree.groupCountAll_openedAll_lt hop hgrouping
    have hle : Tree.groupCountAll (engine.normalOps head ops) ≤
        Tree.groupCountAll (Tree.openedAll ops) := by
      rw [normalOps, if_neg hgroup]
      split
      · exact Tree.groupCountAll_spreadAll_le head _
      · exact Nat.le_refl _
    rw [heq] at hle
    omega
  · intro hbare
    have hcall := call_of_none hbare hcalls
    rw [call] at hcall
    injection hcall

/-! ### Main statements -/

theorem run_function (engine : Engine Unit) (head : String) (ops : List Expr) :
    Id.run (engine.function (pure ()) head ops) = engine.call head ops :=
  engine.function_eq_pure (m := Id) head ops

/-- **A call may be built in steps.**  For an associative head, and for sequences, a call of valid
    operands that is built first gives its operands wherever it stands among the others. -/
theorem function_nested (engine : Engine Unit) {head : String} (hgroup : head ≠ "Delimiter")
    (herror : head ≠ "Error") (hnests : head = "Sequence" ∨ engine.isAssociative head = true)
    (xs zs : List Expr) {ys : List Expr} (hvalid : ∀ y ∈ ys, y.valid = true) :
    (Id.run (engine.function (pure ()) head
        (xs ++ [Id.run (engine.function (pure ()) head ys)] ++ zs))).ops =
      (Id.run (engine.function (pure ()) head (xs ++ ys ++ zs))).ops := by
  simp only [run_function]
  show engine.normalOps head (xs ++ [engine.call head ys] ++ zs) =
    engine.normalOps head (xs ++ ys ++ zs)
  have hcall : (engine.call head ys).valid = true := call_valid herror hvalid
  simp only [normalOps_append, normalOps_call hgroup hnests hcall]

/-- In a sum of an error, the sum `(a+b)+c` and a broken sum it is only the valid sum that gives
    its summands, built before or not. -/
theorem function_nested_sum :
    let missing : Expr := Tree.errorCall .missing none none
    let broken : Expr := .call () "Add" [.symbol "d", missing]
    let group : Expr := .call () "Delimiter" [.call () "Add" [.symbol "a", .symbol "b"]]
    "Add" ≠ "Delimiter" ∧ "Add" ≠ "Error" ∧
      ("Add" = "Sequence" ∨ (Engine.standard : Engine Unit).isAssociative "Add" = true) ∧
      (∀ y ∈ [group, .symbol "c"], y.valid = true) ∧
      (Id.run (Engine.standard.function (pure ()) "Add" ([missing] ++
          [Id.run (Engine.standard.function (pure ()) "Add" [group, .symbol "c"])] ++
          [broken]))).ops =
        (Id.run (Engine.standard.function (pure ()) "Add"
          ([missing] ++ [group, .symbol "c"] ++ [broken]))).ops := by
  intro missing broken group
  have hvalid : ∀ y ∈ [group, .symbol "c"], y.valid = true := by
    simp [group, Tree.valid, Tree.allValid]
  have hassociative :
      "Add" = "Sequence" ∨ (Engine.standard : Engine Unit).isAssociative "Add" = true := by decide
  exact ⟨by decide, by decide, hassociative, hvalid,
    function_nested Engine.standard (by decide) (by decide) hassociative [missing] [broken] hvalid⟩

/-- **A call is normal, and stays as it is when it is built again, just if no sequence or group
    comes to the surface.**  This happens only in calls of an associative head, for which sequences
    and groups are opened before the calls; a call of the head itself is never left. -/
theorem normalCall_function_iff (engine : Engine Unit) {head : String} (hgroup : head ≠ "Delimiter")
    (ops : List Expr) :
    let call := Id.run (engine.function (pure ()) head ops)
    (engine.isAssociative head = true → ∀ op ∈ call.ops, op.isValidCall head = false) ∧
      (engine.NormalCall head call.ops ↔
        ¬ (engine.isAssociative head = true ∧ Tree.HidesGrouping head ops)) ∧
      (Id.run (engine.function (pure ()) head call.ops) = call ↔
        ¬ (engine.isAssociative head = true ∧ Tree.HidesGrouping head ops)) := by
  intro call
  have hcall : call = .call () head (engine.normalOps head ops) := run_function engine head ops
  have hagain : Id.run (engine.function (pure ()) head call.ops) = call ↔
      engine.normalOps head (engine.normalOps head ops) = engine.normalOps head ops := by
    rw [run_function, hcall, Engine.call, Tree.call.injEq]
    exact ⟨fun h => h.2.2, fun h => ⟨rfl, rfl, h⟩⟩
  have hleft : engine.isAssociative head = true →
      ∀ op ∈ engine.normalOps head ops, op.isValidCall head = false :=
    fun hassociative => isValidCall_normalOps hgroup hassociative ops
  rw [hagain, normalOps_eq_self_iff hgroup hleft, ← normalCall_normalOps_iff hgroup ops, hcall]
  exact ⟨hleft, Iff.rfl, Iff.rfl⟩

/-- The group in `(a+b)+c` holds a sum of symbols, so nothing is left to open in the whole sum. -/
theorem normalCall_function_sum :
    let group : Expr := .call () "Delimiter" [.call () "Add" [.symbol "a", .symbol "b"]]
    let call := Id.run (Engine.standard.function (pure ()) "Add" [group, .symbol "c"])
    "Add" ≠ "Delimiter" ∧ Engine.standard.NormalCall "Add" call.ops ∧
      Id.run (Engine.standard.function (pure ()) "Add" call.ops) = call := by
  intro group call
  have hleft : Opening.bodies.frontier [group, .symbol "c"] =
      [.call () "Add" [.symbol "a", .symbol "b"], .symbol "c"] := by
    have hkept : group.kept = [.call () "Add" [.symbol "a", .symbol "b"]] := rfl
    rw [Opening.bodies_of_grouping (by decide), hkept, Opening.bodies_of_not (by decide),
      Opening.bodies_of_not rfl, Opening.frontier_nil]
    rfl
  have hnone : ¬ ((Engine.standard : Engine Unit).isAssociative "Add" = true ∧
      Tree.HidesGrouping "Add" [group, .symbol "c"]) := by
    rintro ⟨-, sum, hidden, hreach, hbare, hsum, hinside, hgrouping⟩
    have hmem : sum ∈ Opening.bodies.frontier [group, .symbol "c"] :=
      Opening.mem_frontier.mpr ⟨hreach, hbare⟩
    rw [hleft, List.mem_pair] at hmem
    rcases hmem with rfl | rfl
    · cases hinside with
      | here mem => rcases List.mem_pair.mp mem with rfl | rfl <;> cases hgrouping
      | deeper mem opened _ => rcases List.mem_pair.mp mem with rfl | rfl <;> cases opened
    · cases hsum
  have hgroup : "Add" ≠ "Delimiter" := by decide
  have hiff := normalCall_function_iff Engine.standard hgroup [group, .symbol "c"]
  exact ⟨hgroup, hiff.2.1.mpr hnone, hiff.2.2.mpr hnone⟩

/-- A sequence in a sum comes to the surface when the sum is put into another one, and is opened
    only when that one is built again. -/
theorem function_exposes_sequence :
    let sum : Expr := .call () "Add" [.call () "Sequence" [.symbol "a", .symbol "b"], .symbol "c"]
    Id.run (Engine.standard.function (pure ()) "Add" [sum]) = sum ∧
      ¬ Engine.standard.NormalCall "Add" sum.ops ∧
      Id.run (Engine.standard.function (pure ()) "Add" sum.ops) =
        .call () "Add" [.symbol "a", .symbol "b", .symbol "c"] := by
  intro sum
  refine ⟨rfl, ?_, rfl⟩
  rintro ⟨hbare, -⟩
  exact absurd (hbare _ List.mem_cons_self).1 (by decide)

end Engine

end Formula
