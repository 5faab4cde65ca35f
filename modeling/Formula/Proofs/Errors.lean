import Formula.Proofs.Normalize

/-!
  **The errors in an expression.**

  What could not be read stands in an expression as calls of `Error`.  `errors` lists them in the
  order in which they stand.  An expression without errors is a valid one, and since normalization
  opens valid operands only, a normal call has just the errors of the operands that it is made of,
  in the same order.  So a call that an engine builds is valid just if its operands were.
-/

namespace Formula

namespace Tree

mutual

/-- The calls of `Error` that stand in an expression, heads of calls included, in order. -/
def errors : Expr → List Expr
  | .call label head ops =>
    (if head = "Error" then [.call label head ops] else []) ++ errorsAll ops
  | .applied _ head ops => head.errors ++ errorsAll ops
  | _ => []

def errorsAll : List Expr → List Expr
  | [] => []
  | op :: rest => op.errors ++ errorsAll rest

end

@[simp] theorem errorsAll_append (xs ys : List Expr) :
    errorsAll (xs ++ ys) = errorsAll xs ++ errorsAll ys := by
  induction xs with
  | nil => rfl
  | cons x xs ih => rw [List.cons_append, errorsAll, errorsAll, ih, List.append_assoc]

theorem errors_call {head : String} (hhead : head ≠ "Error") (ops : List Expr) :
    errors (.call () head ops) = errorsAll ops := by
  rw [errors, if_neg hhead, List.nil_append]

mutual

/-- Valid expressions are those without errors. -/
theorem errors_eq_nil_iff (e : Expr) : e.errors = [] ↔ e.valid = true := by
  match e with
  | .call label head ops =>
    rw [errors, valid_call, List.append_eq_nil_iff, errorsAll_eq_nil_iff ops, Bool.and_eq_true,
      bne_iff_ne]
    by_cases hhead : head = "Error" <;> simp [hhead]
  | .applied label head ops =>
    rw [errors, valid, List.append_eq_nil_iff, errors_eq_nil_iff head, errorsAll_eq_nil_iff ops,
      Bool.and_eq_true]
  | .number value => simp [errors, valid]
  | .symbol name => simp [errors, valid]
  | .text value => simp [errors, valid]

theorem errorsAll_eq_nil_iff (ops : List Expr) : errorsAll ops = [] ↔ allValid ops = true := by
  match ops with
  | [] => simp [errorsAll, allValid]
  | op :: rest =>
    rw [errorsAll, allValid, List.append_eq_nil_iff, errors_eq_nil_iff op,
      errorsAll_eq_nil_iff rest, Bool.and_eq_true]

end

/-- Numbers, symbols and strings are no errors. -/
theorem mem_errors_leaf {a e : Expr} (he : e.isCall = false) :
    a ∈ e.errors ↔ Occurs a e ∧ a.isError = true := by
  have hnone : e.errors = [] := by cases e <;> first | rfl | cases he
  rw [hnone]
  refine iff_of_false (List.not_mem_nil) ?_
  rintro ⟨hoccurs, ha⟩
  cases hoccurs with
  | here => cases a <;> first | cases ha | cases he
  | _ => cases he

mutual

/-- The errors in an expression are the calls of `Error` that occur in it. -/
theorem mem_errors {a : Expr} (e : Expr) : a ∈ e.errors ↔ Occurs a e ∧ a.isError = true := by
  match e with
  | .call label head ops =>
    rw [errors, List.mem_append, mem_errorsAll ops]
    constructor
    · rintro (hown | ⟨op, hop, hoccurs, ha⟩)
      · split at hown
        · rename_i hhead
          rw [List.mem_singleton.mp hown]
          exact ⟨.here _, by simp [isError, hasHead, hhead]⟩
        · cases hown
      · exact ⟨.operand hop hoccurs, ha⟩
    · rintro ⟨hoccurs, ha⟩
      rcases hoccurs.call_cases with rfl | ⟨op, hop, hinside⟩
      · left
        rw [if_pos (by simpa [isError, hasHead] using ha)]
        exact List.mem_singleton_self _
      · exact Or.inr ⟨op, hop, hinside, ha⟩
  | .applied label head ops =>
    rw [errors, List.mem_append, mem_errors head, mem_errorsAll ops]
    constructor
    · rintro (⟨hoccurs, ha⟩ | ⟨op, hop, hoccurs, ha⟩)
      · exact ⟨.appliedHead hoccurs, ha⟩
      · exact ⟨.appliedOperand hop hoccurs, ha⟩
    · rintro ⟨hoccurs, ha⟩
      cases hoccurs with
      | here => cases ha
      | appliedHead inside => exact Or.inl ⟨inside, ha⟩
      | appliedOperand mem inside => exact Or.inr ⟨_, mem, inside, ha⟩
  | .number value => exact mem_errors_leaf rfl
  | .symbol name => exact mem_errors_leaf rfl
  | .text value => exact mem_errors_leaf rfl

theorem mem_errorsAll {a : Expr} (ops : List Expr) :
    a ∈ errorsAll ops ↔ ∃ op ∈ ops, Occurs a op ∧ a.isError = true := by
  match ops with
  | [] => simp [errorsAll]
  | op :: rest =>
    rw [errorsAll, List.mem_append, mem_errors op, mem_errorsAll rest]
    simp only [List.mem_cons, exists_eq_or_imp]

end

theorem isError_iff (e : Expr) : e.isError = true ↔ e.headName? = some "Error" := by
  cases e <;> simp [isError, hasHead, headName?]

/-- An expression is valid just if nothing in it is a call of `Error`. -/
theorem valid_iff (e : Expr) :
    e.valid = true ↔ ∀ a, Occurs a e → a.headName? ≠ some "Error" := by
  rw [← errors_eq_nil_iff, List.eq_nil_iff_forall_not_mem]
  simp only [mem_errors, isError_iff, not_and, ne_eq]

/-! ### Normalization -/

/-- A pass that leaves what is not valid as it is, and makes valid expressions of valid ones, keeps
    the errors. -/
theorem errorsAll_contribution {f : Expr → List Expr} (hinvalid : ∀ e, e.valid = false → f e = [e])
    (hvalid : ∀ e, e.valid = true → ∀ x ∈ f e, x.valid = true) (e : Expr) :
    errorsAll (f e) = e.errors := by
  cases he : e.valid with
  | true =>
    rw [(errors_eq_nil_iff e).mpr he, (errorsAll_eq_nil_iff _).mpr]
    exact allValid_iff.mpr (hvalid e he)
  | false => rw [hinvalid e he, errorsAll, errorsAll, List.append_nil]

theorem errorsAll_openedAll (ops : List Expr) : errorsAll (openedAll ops) = errorsAll ops := by
  induction ops with
  | nil => rfl
  | cons op ops ih =>
    rw [openedAll_cons, errorsAll_append, errorsAll, ih]
    congr 1
    apply errorsAll_contribution
    · intro e he
      apply opened_of_not_grouping
      rw [isGrouping, he, Bool.false_and]
    · intro e he x hx
      rcases (mem_opened hx).2 with rfl | hoccurs
      · rfl
      · exact valid_of_occurs hoccurs he

theorem errorsAll_spreadAll (head : String) (ops : List Expr) :
    errorsAll (spreadAll head ops) = errorsAll ops := by
  induction ops with
  | nil => rfl
  | cons op ops ih =>
    rw [spreadAll, errorsAll_append, errorsAll, ih]
    congr 1
    apply errorsAll_contribution
    · intro e he
      apply spread_of_not
      rw [isValidCall, he, Bool.false_and]
    · intro e he x hx
      rcases (mem_spread hx).2 with rfl | ⟨inner, hinner, hx⟩
      · exact he
      · exact valid_of_occurs (.trans (.operand hx (.here x)) hinner) he

end Tree

namespace Engine

variable (engine : Engine Unit)

/-- The operands of a normal call have the errors of those that it is made of. -/
theorem errorsAll_normalOps (head : String) (ops : List Expr) :
    Tree.errorsAll (engine.normalOps head ops) = Tree.errorsAll ops := by
  unfold normalOps
  split
  · rfl
  · split
    · rw [Tree.errorsAll_spreadAll, Tree.errorsAll_openedAll]
    · rw [Tree.errorsAll_openedAll]

theorem errors_call {head : String} (hhead : head ≠ "Error") (ops : List Expr) :
    (engine.call head ops).errors = Tree.errorsAll ops := by
  rw [call, Tree.errors_call hhead, errorsAll_normalOps]

/-- **Building a call keeps the errors of its operands**, none hidden, lost or moved and none added.
    So the call is valid just if its operands are and it is no error itself, where an expression is
    valid just if nothing in it is an error. -/
theorem errorsAll_function (head : String) (ops : List Expr) :
    let call := Id.run (engine.function (pure ()) head ops)
    Tree.errorsAll call.ops = Tree.errorsAll ops ∧
      (call.valid = true ↔ head ≠ "Error" ∧ ∀ op ∈ ops, op.valid = true) ∧
      ∀ e : Expr, e.valid = true ↔ ∀ a, Tree.Occurs a e → a.headName? ≠ some "Error" := by
  intro call
  have hcall : call = engine.call head ops := engine.function_eq_pure (m := Id) head ops
  rw [hcall]
  refine ⟨engine.errorsAll_normalOps head ops, ?_, Tree.valid_iff⟩
  rw [Engine.call, Tree.valid_call, Bool.and_eq_true, bne_iff_ne, ← Tree.errorsAll_eq_nil_iff,
    engine.errorsAll_normalOps, Tree.errorsAll_eq_nil_iff, Tree.allValid_iff]

end Engine

end Formula
