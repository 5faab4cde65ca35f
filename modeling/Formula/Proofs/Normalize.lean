import Formula.Engine
import Formula.Expr.Error
import Formula.Proofs.Occurrence

/-!
  **Normal calls when labels do not matter.**

  The passes that bring operands into normal form take labels from their surroundings.  Where every
  label is the trivial one they are plain functions of the operands: `opened` is what one operand
  contributes to a call, and `Engine.call` is the call that an engine builds.  The lemmas here say
  which operands such a call has and where each of them comes from; nothing later opens the passes
  themselves.
-/

namespace Formula

variable {m : Type → Type} [Monad m] [LawfulMonad m]

namespace Tree

/-- What an operand contributes to a call. -/
def opened (e : Expr) : List Expr := Id.run (ungroup (pure ()) e)

/-- What operands contribute to a call. -/
def openedAll (ops : List Expr) : List Expr := Id.run (ungroupAll (pure ()) ops)

/-- The tuple that an empty group stands for. -/
def unit : Expr := .call () "Tuple" []

/-! ### Equations -/

theorem ungroup_call {α : Type} {m : Type → Type} [Monad m] (fresh : m α) (label : α)
    (name : String) (ops : List (Tree α)) :
    ungroup fresh (.call label name ops) =
      if (Tree.call label name ops).valid then
        if name = "Sequence" then ungroupAll fresh ops
        else if name = "Delimiter" then
          match ops with
          | [] => do
            let tuple ← emptyTuple fresh
            pure [tuple]
          | body :: _ =>
            if body.isEmptySequence then do
              let tuple ← emptyTuple fresh
              pure [tuple]
            else ungroup fresh body
        else pure [.call label name ops]
      else pure [.call label name ops] := by
  cases ops with
  | nil => rw [ungroup]
  | cons op rest => rw [ungroup]

theorem isGrouping_call (label : Unit) (name : String) (ops : List Expr) :
    (Tree.call label name ops).isGrouping =
      ((Tree.call label name ops).valid && (name == "Sequence" || name == "Delimiter")) := rfl

theorem isGrouping_eq (e : Expr) :
    e.isGrouping = (e.isValidCall "Sequence" || e.isValidCall "Delimiter") := by
  rw [isGrouping, Bool.and_or_distrib_left]
  rfl

theorem opened_of_not_grouping {e : Expr} (h : e.isGrouping = false) : opened e = [e] := by
  cases e with
  | call label name ops =>
    rw [isGrouping_call] at h
    simp only [opened, ungroup_call]
    split
    · rename_i hvalid
      rw [hvalid, Bool.true_and, Bool.or_eq_false_iff, beq_eq_false_iff_ne,
        beq_eq_false_iff_ne] at h
      rw [if_neg h.1, if_neg h.2]
      rfl
    · rfl
  | number value => simp only [opened, ungroup]; rfl
  | symbol name => simp only [opened, ungroup]; rfl
  | text value => simp only [opened, ungroup]; rfl
  | applied label head ops => simp only [opened, ungroup]; rfl

theorem opened_sequence {ops : List Expr} (h : (Tree.call () "Sequence" ops).valid = true) :
    opened (.call () "Sequence" ops) = openedAll ops := by
  simp only [opened, ungroup_call, if_pos h, if_true]
  rfl

theorem opened_emptyGroup : opened (.call () "Delimiter" []) = [unit] := by
  simp only [opened, ungroup, emptyTuple]
  rfl

theorem opened_group {body : Expr} {more : List Expr}
    (h : (Tree.call () "Delimiter" (body :: more)).valid = true) :
    opened (.call () "Delimiter" (body :: more)) =
      if body.isEmptySequence then [unit] else opened body := by
  simp only [opened, ungroup, if_pos h]
  rw [if_neg (by decide), if_pos trivial]
  split
  · rfl
  · rfl

@[simp] theorem openedAll_nil : openedAll [] = [] := rfl

@[simp] theorem openedAll_cons (op : Expr) (ops : List Expr) :
    openedAll (op :: ops) = opened op ++ openedAll ops := rfl

@[simp] theorem openedAll_append (xs ys : List Expr) :
    openedAll (xs ++ ys) = openedAll xs ++ openedAll ys := by
  induction xs with
  | nil => rfl
  | cons x xs ih => simp [ih, List.append_assoc]

/-- Operands without a sequence or a group among them stay as they are. -/
theorem openedAll_of_none {ops : List Expr} (h : ∀ op ∈ ops, op.isGrouping = false) :
    openedAll ops = ops := by
  induction ops with
  | nil => rfl
  | cons op ops ih =>
    rw [openedAll_cons, opened_of_not_grouping (h op (by simp)),
      ih fun x hx => h x (by simp [hx])]
    rfl

@[simp] theorem spreadAll_append (head : String) (xs ys : List Expr) :
    spreadAll head (xs ++ ys) = spreadAll head xs ++ spreadAll head ys := by
  induction xs with
  | nil => rfl
  | cons x xs ih => simp [spreadAll, ih, List.append_assoc]

theorem isValidCall_of_headName {head : String} {e : Expr} (h : e.headName? ≠ some head) :
    e.isValidCall head = false := by
  rw [isValidCall, Bool.and_eq_false_iff]
  right
  cases e with
  | call label name ops => simpa [hasHead, headName?] using h
  | number value => rfl
  | symbol name => rfl
  | text value => rfl
  | applied label name ops => rfl

theorem spread_of_not {head : String} {e : Expr} (h : e.isValidCall head = false) :
    spread head e = [e] := by
  cases e with
  | call label name ops => rw [spread, if_neg (by simp [h])]
  | number value => rfl
  | symbol name => rfl
  | text value => rfl
  | applied label head ops => rfl

theorem spread_call {head : String} {ops : List Expr}
    (h : (Tree.call () head ops).isValidCall head = true) :
    spread head (.call () head ops) = spreadAll head ops := by
  rw [spread, if_pos h]

/-- Operands without a call of `head` among them stay as they are. -/
theorem spreadAll_of_none {head : String} {ops : List Expr}
    (h : ∀ op ∈ ops, op.isValidCall head = false) : spreadAll head ops = ops := by
  induction ops with
  | nil => rfl
  | cons op ops ih =>
    rw [spreadAll, spread_of_not (h op (by simp)), ih fun x hx => h x (by simp [hx])]
    rfl

/-! ### Labels do not matter -/

mutual

theorem ungroup_eq_pure (e : Expr) : ungroup (pure () : m Unit) e = pure (opened e) := by
  match e with
  | .call label name ops =>
    have hall := ungroupAll_eq_pure ops
    simp only [opened, ungroup_call]
    split
    · split
      · exact hall
      · split
        · match ops with
          | [] => simp only [emptyTuple, pure_bind]; rfl
          | body :: more =>
            have hbody := ungroup_eq_pure body
            simp only
            split
            · simp only [emptyTuple, pure_bind]; rfl
            · exact hbody
        · rfl
    · rfl
  | .number value => simp only [opened, ungroup]; rfl
  | .symbol name => simp only [opened, ungroup]; rfl
  | .text value => simp only [opened, ungroup]; rfl
  | .applied label head ops => simp only [opened, ungroup]; rfl

theorem ungroupAll_eq_pure (ops : List Expr) :
    ungroupAll (pure () : m Unit) ops = pure (openedAll ops) := by
  match ops with
  | [] => rfl
  | op :: rest =>
    rw [ungroupAll, ungroup_eq_pure op, pure_bind, ungroupAll_eq_pure rest, pure_bind]
    rfl

end

/-- The error call with the given code, argument and source. -/
def errorCall (code : ErrorCode) (argument source : Option String) : Expr :=
  .call () "Error"
    ((match argument with
      | some argument => .call () "ErrorCode" [.text code.name, .text argument]
      | none => .text code.name) ::
    (match source with
      | some source => [.call () "LatexString" [.text source]]
      | none => []))

theorem error_eq_pure (code : ErrorCode) (argument source : Option String) :
    Tree.error (pure () : m Unit) code argument source = pure (errorCall code argument source) := by
  unfold Tree.error errorCall
  cases argument <;> cases source <;> simp only [pure_bind]

/-- An error has texts for operands, and calls with texts. -/
theorem mem_errorCall {code : ErrorCode} {argument source : Option String} {op : Expr}
    (h : op ∈ Tree.ops (errorCall code argument source)) :
    (∃ text, op = .text text) ∨
      ∃ (head : String) (texts : List String), (head = "ErrorCode" ∨ head = "LatexString") ∧
        op = .call () head (texts.map Tree.text) := by
  rcases List.mem_cons.mp h with rfl | h
  · cases argument with
    | none => exact Or.inl ⟨code.name, rfl⟩
    | some argument =>
      exact Or.inr ⟨"ErrorCode", [code.name, argument], Or.inl rfl, rfl⟩
  · cases source with
    | none => cases h
    | some source =>
      rw [List.mem_singleton.mp h]
      exact Or.inr ⟨"LatexString", [source], Or.inr rfl, rfl⟩

/-! ### Where the operands of a normal call come from -/

theorem isGrouping_unit : unit.isGrouping = false := by decide

mutual

/-- What an operand contributes is no sequence and no group; it stands in the operand, the tuple
    for an empty group apart. -/
theorem mem_opened {e x : Expr} (h : x ∈ opened e) :
    x.isGrouping = false ∧ (x = unit ∨ Occurs x e) := by
  match e with
  | .call label name ops =>
    by_cases hg : (Tree.call label name ops).isGrouping = true
    · rw [isGrouping_call, Bool.and_eq_true] at hg
      obtain ⟨hvalid, hname⟩ := hg
      by_cases hsequence : name = "Sequence"
      · subst hsequence
        rw [opened_sequence hvalid] at h
        obtain ⟨hnot, rfl | ⟨op, hop, hx⟩⟩ := mem_openedAll h
        · exact ⟨hnot, Or.inl rfl⟩
        · exact ⟨hnot, Or.inr (.operand hop hx)⟩
      · have hdelimiter : name = "Delimiter" := by simpa [hsequence] using hname
        subst hdelimiter
        match ops with
        | [] =>
          rw [opened_emptyGroup] at h
          rw [List.mem_singleton.mp h]
          exact ⟨isGrouping_unit, Or.inl rfl⟩
        | body :: more =>
          rw [opened_group hvalid] at h
          split at h
          · rw [List.mem_singleton.mp h]
            exact ⟨isGrouping_unit, Or.inl rfl⟩
          · obtain ⟨hnot, rfl | hx⟩ := mem_opened h
            · exact ⟨hnot, Or.inl rfl⟩
            · exact ⟨hnot, Or.inr (.operand (by simp) hx)⟩
    · have hnot : (Tree.call label name ops).isGrouping = false := by simpa using hg
      rw [opened_of_not_grouping hnot, List.mem_singleton] at h
      subst h
      exact ⟨hnot, Or.inr (.here _)⟩
  | .number value =>
    rw [opened_of_not_grouping rfl, List.mem_singleton] at h
    subst h
    exact ⟨rfl, Or.inr (.here _)⟩
  | .symbol name =>
    rw [opened_of_not_grouping rfl, List.mem_singleton] at h
    subst h
    exact ⟨rfl, Or.inr (.here _)⟩
  | .text value =>
    rw [opened_of_not_grouping rfl, List.mem_singleton] at h
    subst h
    exact ⟨rfl, Or.inr (.here _)⟩
  | .applied label head ops =>
    have hnot : (Tree.applied label head ops).isGrouping = false := by simp [isGrouping, hasHead]
    rw [opened_of_not_grouping hnot, List.mem_singleton] at h
    subst h
    exact ⟨hnot, Or.inr (.here _)⟩

theorem mem_openedAll {ops : List Expr} {x : Expr} (h : x ∈ openedAll ops) :
    x.isGrouping = false ∧ (x = unit ∨ ∃ op ∈ ops, Occurs x op) := by
  match ops with
  | [] => cases h
  | op :: rest =>
    rw [openedAll_cons, List.mem_append] at h
    rcases h with h | h
    · obtain ⟨hnot, rfl | hx⟩ := mem_opened h
      · exact ⟨hnot, Or.inl rfl⟩
      · exact ⟨hnot, Or.inr ⟨op, by simp, hx⟩⟩
    · obtain ⟨hnot, rfl | ⟨op', hop', hx⟩⟩ := mem_openedAll h
      · exact ⟨hnot, Or.inl rfl⟩
      · exact ⟨hnot, Or.inr ⟨op', by simp [hop'], hx⟩⟩

end

mutual

/-- What an operand contributes to a call of `head` is no valid call of `head`; it is the operand
    itself, or an operand of a call of `head` that stands in it. -/
theorem mem_spread {head : String} {e x : Expr} (h : x ∈ spread head e) :
    x.isValidCall head = false ∧
      (x = e ∨ ∃ ops, Occurs (.call () head ops) e ∧ x ∈ ops) := by
  match e with
  | .call label name ops =>
    by_cases hcall : (Tree.call label name ops).isValidCall head = true
    · have hname : name = head := by
        have := (Bool.and_eq_true _ _ ▸ hcall).2
        simpa [hasHead] using this
      subst hname
      rw [spread_call hcall] at h
      obtain ⟨hnot, hx | ⟨op, hop, ops', hcalls, hx⟩⟩ := mem_spreadAll h
      · exact ⟨hnot, Or.inr ⟨ops, .here _, hx⟩⟩
      · exact ⟨hnot, Or.inr ⟨ops', .operand hop hcalls, hx⟩⟩
    · have hnot : (Tree.call label name ops).isValidCall head = false := by simpa using hcall
      rw [spread_of_not hnot, List.mem_singleton] at h
      subst h
      exact ⟨hnot, Or.inl rfl⟩
  | .number value =>
    rw [spread_of_not rfl, List.mem_singleton] at h
    subst h
    exact ⟨rfl, Or.inl rfl⟩
  | .symbol name =>
    rw [spread_of_not rfl, List.mem_singleton] at h
    subst h
    exact ⟨rfl, Or.inl rfl⟩
  | .text value =>
    rw [spread_of_not rfl, List.mem_singleton] at h
    subst h
    exact ⟨rfl, Or.inl rfl⟩
  | .applied label inner ops =>
    have hnot : (Tree.applied label inner ops).isValidCall head = false := by
      simp [isValidCall, hasHead]
    rw [spread_of_not hnot, List.mem_singleton] at h
    subst h
    exact ⟨hnot, Or.inl rfl⟩

theorem mem_spreadAll {head : String} {ops : List Expr} {x : Expr} (h : x ∈ spreadAll head ops) :
    x.isValidCall head = false ∧
      (x ∈ ops ∨ ∃ op ∈ ops, ∃ ops', Occurs (.call () head ops') op ∧ x ∈ ops') := by
  match ops with
  | [] => cases h
  | op :: rest =>
    rw [spreadAll, List.mem_append] at h
    rcases h with h | h
    · obtain ⟨hnot, rfl | hx⟩ := mem_spread h
      · exact ⟨hnot, Or.inl (by simp)⟩
      · exact ⟨hnot, Or.inr ⟨op, by simp, hx⟩⟩
    · obtain ⟨hnot, hx | ⟨op', hop', hx⟩⟩ := mem_spreadAll h
      · exact ⟨hnot, Or.inl (by simp [hx])⟩
      · exact ⟨hnot, Or.inr ⟨op', by simp [hop'], hx⟩⟩

end

end Tree

/-! ### The calls that an engine builds -/

namespace Engine

variable (engine : Engine Unit)

/-- The operands that a call of `head` has in normal form. -/
def normalOps (head : String) (ops : List Expr) : List Expr :=
  if head = "Delimiter" then ops
  else if engine.isAssociative head then Tree.spreadAll head (Tree.openedAll ops)
  else Tree.openedAll ops

/-- The normal call of `head` with the given operands. -/
def call (head : String) (ops : List Expr) : Expr := .call () head (engine.normalOps head ops)

theorem flattenSequence_getD (ops : List Expr) :
    (fun flat? : Option (List Expr) => flat?.getD ops) <$>
        Tree.flattenSequence? (pure () : m Unit) ops = pure (Tree.openedAll ops) := by
  unfold Tree.flattenSequence?
  split
  · rw [Tree.ungroupAll_eq_pure, map_pure, map_pure]
    rfl
  · rename_i hnone
    have hopen : Tree.openedAll ops = ops := by
      apply Tree.openedAll_of_none
      intro op hop
      rw [Bool.not_eq_true, List.any_eq_false] at hnone
      simpa using hnone op hop
    rw [map_pure, hopen]
    rfl

theorem flattenOps_getD (head : String) (ops : List Expr) :
    (Tree.flattenOps? head ops).getD ops = Tree.spreadAll head ops := by
  unfold Tree.flattenOps?
  split
  · rfl
  · rename_i hnone
    symm
    apply Tree.spreadAll_of_none
    intro op hop
    rw [Bool.not_eq_true, List.any_eq_false] at hnone
    simpa using hnone op hop

/-- **Building a call takes nothing from its surroundings but labels.** -/
theorem function_eq_pure (head : String) (ops : List Expr) :
    engine.function (pure () : m Unit) head ops = pure (engine.call head ops) := by
  unfold Engine.function call normalOps
  by_cases hd : head = "Delimiter"
  · simp only [if_pos hd, pure_bind]
  · simp only [if_neg hd, pure_bind]
    have hflat := flattenSequence_getD (m := m) ops
    rw [map_eq_pure_bind] at hflat
    calc
      _ = (Tree.flattenSequence? (pure () : m Unit) ops >>= fun flat? => pure (flat?.getD ops)) >>=
            fun ops => pure (Tree.call () head
              (if engine.isAssociative head then (Tree.flattenOps? head ops).getD ops
                else ops)) := by
        rw [bind_assoc]
        simp only [pure_bind]
      _ = _ := by
        rw [hflat, pure_bind]
        simp only [flattenOps_getD]

section

variable {engine : Engine Unit} {head : String}

/-- Only what operands contribute counts. -/
theorem call_congr (hgroup : head ≠ "Delimiter") {ops ops' : List Expr}
    (h : Tree.openedAll ops = Tree.openedAll ops') :
    engine.call head ops = engine.call head ops' := by
  simp only [call, normalOps, if_neg hgroup, h]

/-- Operands that nothing is to be done to stay as they are. -/
theorem call_of_none {ops : List Expr} (hbare : ∀ op ∈ ops, op.isGrouping = false)
    (hcalls : engine.isAssociative head = true → ∀ op ∈ ops, op.isValidCall head = false) :
    engine.call head ops = .call () head ops := by
  rw [call, normalOps, Tree.openedAll_of_none hbare]
  split
  · rfl
  · split
    · rename_i hassociative
      rw [Tree.spreadAll_of_none (hcalls hassociative)]
    · rfl

/-- Numbers, symbols and strings stay as they are. -/
theorem call_leaves {ops : List Expr} (hops : ∀ op ∈ ops, op.isCall = false) :
    engine.call head ops = .call () head ops := by
  apply call_of_none
  · intro op hop
    have hleaf := hops op hop
    cases op <;> first | rfl | cases hleaf
  · intro _ op hop
    have hleaf := hops op hop
    cases op <;> first | rfl | cases hleaf

/-- Operands that are neither lists nor groups stay as they are in a call of a function that is not
    associative. -/
theorem call_plain (hassociative : engine.isAssociative head = false) {ops : List Expr}
    (hbare : ∀ op ∈ ops, op.isGrouping = false) : engine.call head ops = .call () head ops := by
  apply call_of_none hbare
  intro h
  rw [hassociative] at h
  cases h

/-- The operands of a normal call stand in the operands that it is made of, the tuples for empty
    groups apart. -/
theorem mem_normalOps {ops : List Expr} {x : Expr} (h : x ∈ engine.normalOps head ops) :
    x = Tree.unit ∨ ∃ op ∈ ops, Tree.Occurs x op := by
  unfold normalOps at h
  split at h
  · exact Or.inr ⟨x, h, .here x⟩
  · split at h
    · obtain ⟨-, hx | ⟨op, hop, inner, hinner, hx⟩⟩ := Tree.mem_spreadAll h
      · exact (Tree.mem_openedAll hx).2
      · have hoccurs : Tree.Occurs x op := Tree.Occurs.trans (.operand hx (.here x)) hinner
        rcases (Tree.mem_openedAll hop).2 with rfl | ⟨op', hop', hin⟩
        · rcases hoccurs.call_cases with rfl | ⟨y, hy, -⟩
          · exact Or.inl rfl
          · cases hy
        · exact Or.inr ⟨op', hop', hoccurs.trans hin⟩
    · exact (Tree.mem_openedAll h).2

theorem call_valid (herror : head ≠ "Error") {ops : List Expr}
    (h : ∀ op ∈ ops, op.valid = true) : (engine.call head ops).valid = true := by
  have hnormal : ∀ x ∈ engine.normalOps head ops, x.valid = true := by
    intro x hx
    rcases mem_normalOps hx with rfl | ⟨op, hop, hoccurs⟩
    · rfl
    · exact Tree.valid_of_occurs hoccurs (h op hop)
  rw [call, Tree.valid_call, Bool.and_eq_true, Tree.allValid_iff]
  exact ⟨by simpa using herror, hnormal⟩

/-- Each operand is brought into normal form for itself. -/
theorem normalOps_append (head : String) (xs ys : List Expr) :
    engine.normalOps head (xs ++ ys) = engine.normalOps head xs ++ engine.normalOps head ys := by
  unfold normalOps
  split
  · rfl
  · split
    · rw [Tree.openedAll_append, Tree.spreadAll_append]
    · rw [Tree.openedAll_append]

theorem normalOps_sequence (xs : List Expr) :
    engine.normalOps "Sequence" xs = Tree.openedAll xs := by
  rw [normalOps, if_neg (by decide)]
  split
  · apply Tree.spreadAll_of_none
    intro x hx
    have hbare := (Tree.mem_openedAll hx).1
    rw [Tree.isGrouping_eq, Bool.or_eq_false_iff] at hbare
    exact hbare.1
  · rfl

/-- A call inside a call of the same head gives its operands, for a sequence and for an
    associative head. -/
theorem normalOps_call (hgroup : head ≠ "Delimiter")
    (hnests : head = "Sequence" ∨ engine.isAssociative head = true) {xs : List Expr}
    (hvalid : (engine.call head xs).valid = true) :
    engine.normalOps head [engine.call head xs] = engine.normalOps head xs := by
  by_cases hsequence : head = "Sequence"
  · -- a sequence is opened by the first pass, which has left nothing to open in it
    subst hsequence
    rw [normalOps_sequence, normalOps_sequence, Tree.openedAll_cons, Tree.openedAll_nil,
      List.append_nil, call, Tree.opened_sequence hvalid, normalOps_sequence]
    exact Tree.openedAll_of_none fun x hx => (Tree.mem_openedAll hx).1
  · have hassociative := hnests.resolve_left hsequence
    have hbare : (engine.call head xs).isGrouping = false := by
      rw [call, Tree.isGrouping_call]
      simp [hgroup, hsequence]
    have hcall : (engine.call head xs).isValidCall head = true := by
      rw [Tree.isValidCall, hvalid]
      simp [call, Tree.hasHead]
    have hops : ∀ es, engine.normalOps head es = Tree.spreadAll head (Tree.openedAll es) := by
      intro es
      rw [normalOps, if_neg hgroup, if_pos hassociative]
    rw [hops, Tree.openedAll_cons, Tree.opened_of_not_grouping hbare, Tree.openedAll_nil,
      List.append_nil, Tree.spreadAll, Tree.spreadAll, List.append_nil]
    unfold call at hcall ⊢
    rw [Tree.spread_call hcall, hops]
    exact Tree.spreadAll_of_none fun x hx => (Tree.mem_spreadAll hx).1

/-- The operands of a call of an associative head may as well be its first operand. -/
theorem call_append (hgroup : head ≠ "Delimiter")
    (hassociative : engine.isAssociative head = true) {xs : List Expr}
    (hvalid : (engine.call head xs).valid = true) (ys : List Expr) :
    engine.call head (engine.call head xs :: ys) = engine.call head (xs ++ ys) := by
  have hops : engine.normalOps head (engine.call head xs :: ys) =
      engine.normalOps head (xs ++ ys) := by
    rw [← List.singleton_append, normalOps_append, normalOps_append,
      normalOps_call hgroup (Or.inr hassociative) hvalid]
  rw [call, hops, call]

/-- One more operand for a call of an associative head. -/
theorem call_leaves_snoc (hgroup : head ≠ "Delimiter") (herror : head ≠ "Error")
    (hassociative : engine.isAssociative head = true) {ops : List Expr}
    (hops : ∀ op ∈ ops, op.isCall = false) {last : Expr} (hlast : last.isCall = false) :
    engine.call head [.call () head ops, last] = .call () head (ops ++ [last]) := by
  have hvalid : (engine.call head ops).valid = true := by
    apply call_valid herror
    intro op hop
    have hleaf := hops op hop
    cases op <;> first | rfl | cases hleaf
  have hall : ∀ op ∈ ops ++ [last], op.isCall = false := by
    intro op hop
    rcases List.mem_append.mp hop with hop | hop
    · exact hops op hop
    · rwa [List.mem_singleton.mp hop]
  have happend := call_append hgroup hassociative hvalid [last]
  rwa [call_leaves hops, call_leaves hall] at happend

end

end Engine

end Formula
