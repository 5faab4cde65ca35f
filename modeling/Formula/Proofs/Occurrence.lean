import Formula.Expr

/-!
  **What occurs in an expression.**

  `Occurs a e` says that the expression `a` stands somewhere in `e`: it is `e` itself, or it stands
  in an operand or in the head of a call in `e`.  Statements about every node of a tree are
  statements about what occurs in it.
-/

namespace Formula.Tree

variable {α : Type}

/-- The first expression stands somewhere in the second. -/
inductive Occurs : Tree α → Tree α → Prop where
  | here (e : Tree α) : Occurs e e
  | operand {a op : Tree α} {label : α} {head : String} {ops : List (Tree α)}
      (mem : op ∈ ops) (inside : Occurs a op) : Occurs a (.call label head ops)
  | appliedHead {a head : Tree α} {label : α} {ops : List (Tree α)}
      (inside : Occurs a head) : Occurs a (.applied label head ops)
  | appliedOperand {a head op : Tree α} {label : α} {ops : List (Tree α)}
      (mem : op ∈ ops) (inside : Occurs a op) : Occurs a (.applied label head ops)

namespace Occurs

theorem trans {a b c : Tree α} (hab : Occurs a b) (hbc : Occurs b c) : Occurs a c := by
  induction hbc with
  | here => exact hab
  | operand mem _ ih => exact .operand mem ih
  | appliedHead _ ih => exact .appliedHead ih
  | appliedOperand mem _ ih => exact .appliedOperand mem ih

/-- What occurs in a call is the call itself or occurs in an operand. -/
theorem call_cases {a : Tree α} {label : α} {head : String} {ops : List (Tree α)}
    (h : Occurs a (.call label head ops)) :
    a = .call label head ops ∨ ∃ op ∈ ops, Occurs a op := by
  cases h with
  | here => exact Or.inl rfl
  | operand mem inside => exact Or.inr ⟨_, mem, inside⟩

theorem number_eq {a : Tree α} {value : Number} (h : Occurs a (.number value)) :
    a = .number value := by
  cases h
  rfl

theorem symbol_eq {a : Tree α} {name : String} (h : Occurs a (.symbol name)) :
    a = .symbol name := by
  cases h
  rfl

end Occurs

/-- The operands of an expression occur in it. -/
theorem occurs_of_mem_ops {e op : Tree α} (h : op ∈ e.ops) : Occurs op e := by
  cases e with
  | call label head ops => exact .operand h (.here op)
  | applied label head ops => exact .appliedOperand h (.here op)
  | number value => cases h
  | symbol name => cases h
  | text value => cases h

/-! ### Validity -/

theorem allValid_iff {ops : List (Tree α)} : allValid ops = true ↔ ∀ op ∈ ops, op.valid = true := by
  induction ops with
  | nil => simp [allValid]
  | cons op ops ih => simp [allValid, ih]

@[simp] theorem valid_call (label : α) (head : String) (ops : List (Tree α)) :
    (Tree.call label head ops).valid = (head != "Error" && allValid ops) := rfl

theorem valid_of_mem {label : α} {head : String} {ops : List (Tree α)} {op : Tree α}
    (h : (Tree.call label head ops).valid = true) (mem : op ∈ ops) : op.valid = true := by
  rw [valid_call, Bool.and_eq_true] at h
  exact allValid_iff.mp h.2 op mem

/-- What occurs in a valid expression is valid. -/
theorem valid_of_occurs {a e : Tree α} (h : Occurs a e) (he : e.valid = true) :
    a.valid = true := by
  induction h with
  | here => exact he
  | operand mem _ ih => exact ih (valid_of_mem he mem)
  | appliedHead _ ih =>
    rw [valid, Bool.and_eq_true] at he
    exact ih he.1
  | appliedOperand mem _ ih =>
    rw [valid, Bool.and_eq_true] at he
    exact ih (allValid_iff.mp he.2 _ mem)

end Formula.Tree
