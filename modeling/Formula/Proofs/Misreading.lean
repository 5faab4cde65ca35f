import Formula.Proofs.OperatorChain

/-!
  **What is misread stays misread.**

  The operators of an expression are the heads of its calls from left to right.  An error that
  starts with the wrong operators is `Misread`.  Whatever is read behind it stands to its right,
  and the calls that are built around it leave it as it is, since an error is never opened.  So all
  that is read from there on is misread as well.
-/

namespace Formula

open Reader

/-! ### The operators of an expression -/

namespace Tree

variable {α : Type}

mutual

/-- The heads of the calls in an expression from left to right, each between its operands. -/
def operators : Tree α → List String
  | .call _ head (op :: rest) => op.operators ++ operatorsBehind head rest
  | _ => []

/-- Those of further operands, with the head of the call in front of each. -/
def operatorsBehind (head : String) : List (Tree α) → List String
  | [] => []
  | op :: rest => head :: op.operators ++ operatorsBehind head rest

end

theorem operators_call (label : α) (head : String) (op : Tree α) (rest : List (Tree α)) :
    (Tree.call label head (op :: rest)).operators =
      op.operators ++ operatorsBehind head rest := by
  rw [operators]

theorem operators_pair (label : α) (head : String) (lhs rhs : Tree α) :
    (Tree.call label head [lhs, rhs]).operators =
      lhs.operators ++ head :: rhs.operators := by
  rw [operators_call, operatorsBehind, operatorsBehind, List.append_nil]

theorem valid_errorCall (code : ErrorCode) (argument source : Option String) :
    (errorCall code argument source).valid = false := rfl

theorem isGrouping_of_invalid {e : Tree α} (h : e.valid = false) : e.isGrouping = false := by
  rw [isGrouping, h, Bool.false_and]

theorem isValidCall_of_invalid {e : Tree α} (h : e.valid = false) (head : String) :
    e.isValidCall head = false := by
  rw [isValidCall, h, Bool.false_and]

end Tree

/-- An error in front of the other operands is not opened. -/
theorem Engine.exists_call_cons (engine : Engine Unit) (head : String) {e : Expr}
    (he : e.valid = false) (ops : List Expr) :
    ∃ more, engine.call head (e :: ops) = .call () head (e :: more) := by
  unfold Engine.call Engine.normalOps
  have hopened : Tree.openedAll (e :: ops) = e :: Tree.openedAll ops := by
    rw [Tree.openedAll_cons, Tree.opened_of_not_grouping (Tree.isGrouping_of_invalid he)]
    rfl
  split
  · exact ⟨ops, rfl⟩
  · rw [hopened]
    split
    · rw [Tree.spreadAll, Tree.spread_of_not (Tree.isValidCall_of_invalid he head)]
      exact ⟨_, rfl⟩
    · exact ⟨_, rfl⟩

theorem Engine.call_invalid (engine : Engine Unit) (head : String) {e : Expr}
    (he : e.valid = false) (ops : List Expr) : (engine.call head (e :: ops)).valid = false := by
  obtain ⟨more, hcall⟩ := engine.exists_call_cons head he ops
  rw [hcall]
  simp [Tree.allValid, he]

/-- The expression is an error, and its operators start otherwise than the given ones. -/
structure Misread (names : List String) (e : Expr) : Prop where
  invalid : e.valid = false
  start : ∃ p, p <+: e.operators ∧ ¬ p <+: names

namespace Misread

theorem operators_ne {names : List String} {e : Expr} (h : Misread names e) :
    e.operators ≠ names := by
  obtain ⟨p, hp, hnames⟩ := h.start
  rintro rfl
  exact hnames hp

/-- A call with a misread expression in front is misread as well. -/
theorem call {names : List String} {e : Expr} (h : Misread names e) (engine : Engine Unit)
    (head : String) (ops : List Expr) : Misread names (engine.call head (e :: ops)) := by
  obtain ⟨p, hp, hnames⟩ := h.start
  refine ⟨engine.call_invalid head h.invalid ops, p, ?_, hnames⟩
  obtain ⟨more, hcall⟩ := engine.exists_call_cons head h.invalid ops
  rw [hcall, Tree.operators_call]
  exact hp.trans (List.prefix_append _ _)

/-- So is a call with a misread expression on the right. -/
theorem behind {names : List String} {e : Expr} (h : Misread names e) (head : String)
    (lhs : Expr) : Misread (lhs.operators ++ head :: names) (.call () head [lhs, e]) := by
  obtain ⟨p, hp, hnames⟩ := h.start
  refine ⟨by simp [Tree.allValid, h.invalid], lhs.operators ++ head :: p, ?_, ?_⟩
  · rw [Tree.operators_pair, List.prefix_append_right_inj]
    exact List.cons_prefix_cons.mpr ⟨rfl, hp⟩
  · rw [List.prefix_append_right_inj]
    exact fun hprefix => hnames (List.cons_prefix_cons.mp hprefix).2

/-- A call of another head is misread if its right side is an error. -/
theorem of_head_ne {head other : String} (hne : other ≠ head) (lhs : Expr) {e : Expr}
    (he : e.valid = false) (names : List String) :
    Misread (lhs.operators ++ head :: names) (.call () other [lhs, e]) := by
  refine ⟨by simp [Tree.allValid, he], lhs.operators ++ [other], ?_, ?_⟩
  · rw [Tree.operators_pair, List.prefix_append_right_inj]
    exact List.cons_prefix_cons.mpr ⟨rfl, List.nil_prefix⟩
  · rw [List.prefix_append_right_inj]
    exact fun hprefix => hne (List.cons_prefix_cons.mp hprefix).1

end Misread

/-! ### Reading on -/

namespace InfixOnly

variable {engine : Engine Unit} {ops : List (Entry Unit)}
  {inner : Terminator → List Token → Id (Option Expr × List Token)}

/-- No notation of the dictionary starts an expression. -/
theorem candidates_start (h : InfixOnly engine ops) (rest : List Token) :
    engine.dictionary.candidates rest [.symbol, .prefixOp, .matchfix] = [] := by
  rw [List.eq_nil_iff_forall_not_mem]
  intro found hfound
  obtain ⟨hmem, hkind, -⟩ := h.indexed.candidate hfound
  rw [h.kind_eq _ hmem] at hkind
  simp at hkind

/-- An operator takes what is on its left and whatever is read on its right. -/
theorem accept_eq (h : InfixOnly engine ops) {lhs : Expr} {stop : Terminator}
    {start : List Token} {found : TriggerMatch Unit} (hfound : found.entry ∈ ops)
    {rhs : Option Expr} {after : List Token}
    (hread : inner (stop.withMinPrec (rightBound found.entry)) found.after = pure (rhs, after)) :
    accept engine engine.host inner (some lhs) stop start found =
      pure (some (engine.call found.entry.headName
        [lhs, rhs.getD (Tree.errorCall .missing none none)], after)) := by
  have hrule := h.ruled hfound
  rw [accept_eq_byKind hrule.rule]
  simp only [byKind, hrule.head_eq, hrule.kind_eq, hread, pure_bind, orMissing_eq, build_eq]

/-- A property that calls inherit from their first operand stays when reading goes on. -/
theorem operators_keeps (h : InfixOnly engine ops) {P : Expr → Prop}
    (hcall : ∀ e, P e → ∀ head rhs, P (engine.call head [e, rhs])) (stop : Terminator) (fuel : Nat)
    {lhs : Expr} (hlhs : P lhs) (rest : List Token) :
    P (Id.run (operators engine engine.host inner stop fuel lhs rest)).1 := by
  induction fuel generalizing lhs rest with
  | zero => exact hlhs
  | succ fuel ih =>
    rw [operators]
    dsimp only
    generalize skipSpace rest = place
    split
    · exact hlhs
    split
    · have hnext : ∀ e after, juxtaposed engine engine.host inner lhs stop place =
          pure (some (e, after)) → P e := by
        intro e after heq
        unfold juxtaposed at heq
        split at heq
        · cases heq
        split at heq
        · cases heq
        rename_i head _ _
        generalize inner (stop.withMinPrec (invisiblePrecedence + 1)) place = result at heq
        obtain ⟨_ | rhs, after'⟩ := result
        · cases heq
        · simp only [build_eq] at heq
          cases heq
          exact hcall lhs hlhs head rhs
      generalize juxtaposed engine engine.host inner lhs stop place = next at hnext
      obtain _ | ⟨e, after⟩ := next
      · exact hlhs
      · exact ih (hnext e after rfl) after
    · generalize hmatches : (engine.dictionary.candidates place [.infixOp, .postfixOp]).filter
        (fun candidate => stop.minPrec ≤ candidate.entry.precedence) = found
      have hnext : ∀ e after, firstAccepted engine engine.host inner (some lhs) stop place found =
          pure (some (e, after)) → P e := by
        intro e after heq
        obtain ⟨one, hone, haccept⟩ := exists_accepted heq
        rw [← hmatches] at hone
        have hmem : one.entry ∈ ops := (h.indexed.candidate (List.mem_filter.mp hone).1).1
        generalize hread : inner (stop.withMinPrec (rightBound one.entry)) one.after = result
          at haccept
        obtain ⟨rhs, after'⟩ := result
        rw [h.accept_eq hmem hread] at haccept
        cases haccept
        exact hcall lhs hlhs _ _
      generalize firstAccepted engine engine.host inner (some lhs) stop place found = next at hnext
      obtain _ | ⟨e, after⟩ := next
      · exact hlhs
      · exact ih (hnext e after rfl) after

theorem more_keeps (h : InfixOnly engine ops) {P : Expr → Prop}
    (hcall : ∀ e, P e → ∀ head rhs, P (engine.call head [e, rhs])) (stop : Terminator)
    {lhs : Expr} (hlhs : P lhs) (rest : List Token) :
    ∃ e after, more engine stop lhs rest = pure (e, after) ∧ P e := by
  have hkept : P (Id.run (more engine stop lhs rest)).1 :=
    h.operators_keeps hcall stop _ hlhs rest
  exact ⟨_, (Id.run (more engine stop lhs rest)).2, rfl, hkept⟩

theorem more_invalid (h : InfixOnly engine ops) (stop : Terminator) {lhs : Expr}
    (hlhs : lhs.valid = false) (rest : List Token) :
    ∃ e after, more engine stop lhs rest = pure (e, after) ∧ e.valid = false :=
  h.more_keeps (P := fun e => e.valid = false)
    (fun _ he head rhs => engine.call_invalid head he [rhs]) stop hlhs rest

theorem more_misread (h : InfixOnly engine ops) (stop : Terminator) {names : List String}
    {lhs : Expr} (hlhs : Misread names lhs) (rest : List Token) :
    ∃ e after, more engine stop lhs rest = pure (e, after) ∧ Misread names e :=
  h.more_keeps (fun _ he head rhs => he.call engine head [rhs]) stop hlhs rest

/-- Of the operators that the bound lets pass the first is taken. -/
theorem more_first (h : InfixOnly engine ops) {stop : Terminator} (hstop : Proper engine stop)
    {t : Token} (ht : Opens engine t) {tail : List Token} {found : TriggerMatch Unit}
    {others : List (TriggerMatch Unit)}
    (hmatches : (engine.dictionary.candidates (t :: tail) [.infixOp, .postfixOp]).filter
      (fun candidate => stop.minPrec ≤ candidate.entry.precedence) = found :: others)
    {rhs : Option Expr} {after : List Token}
    (hread : expression engine engine.host (stop.withMinPrec (rightBound found.entry)) found.after =
      pure (rhs, after)) (lhs : Expr) :
    more engine stop lhs (t :: tail) =
      more engine stop (engine.call found.entry.headName
        [lhs, rhs.getD (Tree.errorCall .missing none none)]) after := by
  have hfound : found ∈ engine.dictionary.candidates (t :: tail) [.infixOp, .postfixOp] := by
    have hmem : found ∈ (engine.dictionary.candidates (t :: tail) [.infixOp, .postfixOp]).filter
        (fun candidate => stop.minPrec ≤ candidate.entry.precedence) := by
      rw [hmatches]
      exact List.mem_cons_self
    exact (List.mem_filter.mp hmem).1
  apply more_of_accepted (Engine.accepted_of_ofEntries h.accepted) hstop ht
  · exact List.ne_nil_of_mem hfound
  · rw [hmatches, firstAccepted, h.accept_eq (h.indexed.candidate hfound).1 hread]
    rfl

/-- If that one has its right side misread, all is misread from there on. -/
theorem more_first_misread (h : InfixOnly engine ops) {stop : Terminator}
    (hstop : Proper engine stop) {t : Token} (ht : Opens engine t) {tail : List Token}
    {found : TriggerMatch Unit} {others : List (TriggerMatch Unit)}
    (hmatches : (engine.dictionary.candidates (t :: tail) [.infixOp, .postfixOp]).filter
      (fun candidate => stop.minPrec ≤ candidate.entry.precedence) = found :: others)
    (hfound : found.entry ∈ ops) {names : List String} {rhs : Expr} {after : List Token}
    (hread : expression engine engine.host (stop.withMinPrec (rightBound found.entry)) found.after =
      pure (some rhs, after)) (hrhs : Misread names rhs) {lhs : Expr}
    (hlhs : lhs.isGrouping = false) :
    ∃ e place, more engine stop lhs (t :: tail) = pure (e, place) ∧
      Misread (lhs.operators ++ found.entry.headName :: names) e := by
  rw [h.more_first hstop ht hmatches hread, Option.getD_some,
    h.call_eq hfound hlhs (Tree.isGrouping_of_invalid hrhs.invalid)]
  exact h.more_misread stop (hrhs.behind found.entry.headName lhs) after

/-- If another operator is expected there and no operand stands on its right, too. -/
theorem more_first_wrong (h : InfixOnly engine ops) {stop : Terminator}
    (hstop : Proper engine stop) {t : Token} (ht : Opens engine t) {tail : List Token}
    {found : TriggerMatch Unit} {others : List (TriggerMatch Unit)}
    (hmatches : (engine.dictionary.candidates (t :: tail) [.infixOp, .postfixOp]).filter
      (fun candidate => stop.minPrec ≤ candidate.entry.precedence) = found :: others)
    (hfound : found.entry ∈ ops) {head : String} (hhead : found.entry.headName ≠ head)
    {rhs : Option Expr} {after : List Token}
    (hread : expression engine engine.host (stop.withMinPrec (rightBound found.entry)) found.after =
      pure (rhs, after))
    (hrhs : (rhs.getD (Tree.errorCall .missing none none)).valid = false) {lhs : Expr}
    (hlhs : lhs.isGrouping = false) (names : List String) :
    ∃ e place, more engine stop lhs (t :: tail) = pure (e, place) ∧
      Misread (lhs.operators ++ head :: names) e := by
  rw [h.more_first hstop ht hmatches hread,
    h.call_eq hfound hlhs (Tree.isGrouping_of_invalid hrhs)]
  exact h.more_misread stop (.of_head_ne hhead lhs hrhs names) after

end InfixOnly

end Formula
