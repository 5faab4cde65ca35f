import Formula.Proofs.Latex.Spelling
import Mathlib.Data.List.Forall2

/-!
  **The LaTeX of operators.**

  An expression is read as another if its LaTeX is a spelling of the other.  A call of an operator
  is read as the call that the engine builds of what its operands are read as.  The writer leaves
  parentheses away only where the operator at the root of an operand fits its side, so the text of
  each operand is that of an operand that fits.  Operators of equal precedence have to group to the
  same side for that.
-/

namespace Formula

open Latex Reader

variable {engine : Engine Unit}

/-- The LaTeX of the first expression is the text of a phrase with the second as its value. -/
def ReadAs (engine : Engine Unit) (e r : Expr) : Prop :=
  ∃ φ, Spelling engine (rootOperator? engine.dictionary e) (engine.latex e).toList φ r

theorem ReadAs.parse_eq (h : engine.Accepted) {e r : Expr} (he : ReadAs engine e r) :
    engine.parse (engine.latex e) = r := by
  obtain ⟨φ, hφ⟩ := he
  rw [Engine.parse, hφ.scans.tokenize_eq, parseTokens_phrase h hφ.grouped, hφ.value_eq]

theorem ReadAs.bare {e r : Expr} (he : ReadAs engine e r) : r.isGrouping = false := by
  obtain ⟨φ, hφ⟩ := he
  exact hφ.bare

/-! ### Lists of operands -/

section

variable {α β : Type} {R : α → β → Prop}

theorem exists_forall₂ {xs : List α} (h : ∀ x ∈ xs, ∃ y, R x y) :
    ∃ ys, List.Forall₂ R xs ys := by
  induction xs with
  | nil => exact ⟨[], .nil⟩
  | cons x xs ih =>
    obtain ⟨y, hy⟩ := h x List.mem_cons_self
    obtain ⟨ys, hys⟩ := ih fun x hx => h x (List.mem_cons_of_mem _ hx)
    exact ⟨y :: ys, .cons hy hys⟩

theorem exists_of_mem_forall₂ {xs : List α} {ys : List β} (h : List.Forall₂ R xs ys) {y : β}
    (hy : y ∈ ys) : ∃ x ∈ xs, R x y := by
  induction h with
  | nil => cases hy
  | @cons x y' xs ys hxy _ ih =>
    rcases List.mem_cons.mp hy with rfl | hy
    · exact ⟨x, List.mem_cons_self, hxy⟩
    · obtain ⟨x', hx', hxy'⟩ := ih hy
      exact ⟨x', List.mem_cons_of_mem _ hx', hxy'⟩

theorem eq_of_forall₂ {R : α → α → Prop} {xs ys : List α} (h : List.Forall₂ R xs ys)
    (heq : ∀ x ∈ xs, ∀ y, R x y → y = x) : ys = xs := by
  induction h with
  | nil => rfl
  | @cons x y xs ys hxy _ ih =>
    rw [heq x List.mem_cons_self y hxy, ih fun x hx => heq x (List.mem_cons_of_mem _ hx)]

end

/-! ### Where the writer leaves parentheses away -/

section

variable {d : Dictionary Unit} {e : Expr} {entry o : Entry Unit}

theorem Latex.rootOperator_kind (h : rootOperator? d e = some o) :
    o.kind = .infixOp ∨ o.kind = .prefixOp := by
  unfold rootOperator? at h
  split at h
  · split at h
    · cases h
      assumption
    · cases h
  · cases h

theorem Latex.le_of_not_needs {precedence : Nat} {strict : Bool}
    (h : needsParentheses d precedence strict e = false) (hroot : rootOperator? d e = some o) :
    precedence ≤ o.precedence ∧ (strict = true → precedence < o.precedence) := by
  rw [needsParentheses, operandPrecedence_eq, hroot] at h
  simp only [Option.map_some, Bool.or_eq_false_iff, decide_eq_false_iff_not, Nat.not_lt] at h
  refine ⟨h.1, ?_⟩
  rintro rfl
  have hne : o.precedence ≠ precedence := by simpa using h.2
  omega

/-- A left operand without parentheses fits, unless an operator of the same precedence in it
    groups to the other side. -/
theorem Latex.fitsLeft_of_not_needs
    (h : needsParentheses d entry.precedence (isStrictSide entry.associativity true) e = false)
    (hroot : rootOperator? d e = some o)
    (hsame : o.kind = .infixOp → o.precedence = entry.precedence → o.associativity = .right →
      entry.associativity = .right) : entry.FitsLeft o := by
  obtain ⟨hle, hstrict⟩ := le_of_not_needs h hroot
  refine ⟨?_, fun _ => hle⟩
  rcases Nat.lt_or_eq_of_le hle with hlt | heq
  · exact Nat.lt_of_lt_of_le hlt o.precedence_le_operandBound
  · have hright : entry.associativity ≠ .right := by
      intro hright
      have := hstrict (by rw [hright]; rfl)
      omega
    rcases rootOperator_kind hroot with hkind | hkind
    · have hother : o.associativity ≠ .right := fun ho => hright (hsame hkind heq.symm ho)
      rw [Entry.operandBound, hkind, heq]
      exact Entry.precedence_lt_sideBound hother
    · rw [Entry.operandBound, hkind, heq]
      exact Nat.lt_succ_self _

theorem Latex.fitsRight_of_not_needs (hbetween : entry.kind = .infixOp)
    (h : needsParentheses d entry.precedence (isStrictSide entry.associativity false) e = false)
    (hroot : rootOperator? d e = some o) : entry.FitsRight o := by
  obtain ⟨hle, hstrict⟩ := le_of_not_needs h hroot
  have hbound : entry.operandBound ≤ o.precedence := by
    rw [Entry.operandBound, hbetween]
    show entry.sideBound ≤ o.precedence
    unfold Entry.sideBound
    cases hside : entry.associativity with
    | right => exact hle
    | left => exact hstrict (by rw [hside]; rfl)
    | nonAssociative => exact hstrict (by rw [hside]; rfl)
  exact ⟨Nat.le_trans hbound o.precedence_le_operandBound, fun _ => hbound⟩

end

/-! ### The form of a call -/

section

variable {entry : Entry Unit} {trigger : Trigger}

theorem Engine.Operator.rootOperator {kind : Kind} (ho : engine.Operator kind entry trigger)
    (hkind : kind = .infixOp ∨ kind = .prefixOp) (ops : List Expr) :
    rootOperator? engine.dictionary (.call () entry.headName ops) = some entry := by
  have hname : (Tree.headName? (.call () entry.headName ops : Expr)).bind
      engine.dictionary.byName? = some entry := ho.named
  rw [rootOperator?, hname]
  exact if_pos (ho.ruled.kind_eq ▸ hkind)

/-- A call of an operator has the form of its kind. -/
theorem Engine.Operator.form {kind : Kind} (ho : engine.Operator kind entry trigger) (count : Nat) :
    formOf engine.dictionary entry.headName count = formByKind entry count := by
  rw [formOf, if_neg ho.notError, ho.named]
  simp only [ho.written]

theorem Engine.Operator.latex_between (ho : engine.Operator .infixOp entry trigger)
    {ops : List Expr} (hcount : 2 ≤ ops.length) :
    engine.latex (.call () entry.headName ops) =
      join (writeOperands engine.dictionary trigger.latex entry.precedence entry.associativity
        true ops) := by
  obtain ⟨more, hmore⟩ := List.head?_eq_some_iff.mp ho.first
  have hform : formOf engine.dictionary entry.headName ops.length =
      .between trigger.latex entry.precedence entry.associativity := by
    rw [ho.form, formByKind, hmore, ho.ruled.kind_eq]
    exact if_pos hcount
  rw [Engine.latex, write, hform]

theorem Engine.Operator.latex_before (ho : engine.Operator .prefixOp entry trigger) (a : Expr) :
    engine.latex (.call () entry.headName [a]) =
      join [trigger.latex,
        parenthesize (needsParentheses engine.dictionary entry.precedence false a)
          (engine.latex a)] := by
  obtain ⟨more, hmore⟩ := List.head?_eq_some_iff.mp ho.first
  have hform : formOf engine.dictionary entry.headName 1 =
      .before trigger.latex entry.precedence := by
    rw [ho.form, formByKind, hmore, ho.ruled.kind_eq]
    rfl
  rw [Engine.latex, write, List.length_singleton, hform]
  rfl

/-! ### The operands of an operator -/

section

variable (d : Dictionary Unit) (text : String) (precedence : Nat) (associativity : Associativity)
  (op : Expr) (ops : List Expr)

theorem Latex.writeOperands_first :
    writeOperands d text precedence associativity true (op :: ops) =
      parenthesize (needsParentheses d precedence (isStrictSide associativity true) op)
          (write d op) :: writeOperands d text precedence associativity false ops := by
  rw [writeOperands]
  rfl

theorem Latex.writeOperands_next :
    writeOperands d text precedence associativity false (op :: ops) =
      text :: parenthesize (needsParentheses d precedence (isStrictSide associativity false) op)
          (write d op) :: writeOperands d text precedence associativity false ops := by
  rw [writeOperands]
  rfl

end

/-! ### Calls of operators -/

variable {paren : Entry Unit} {opening close : Trigger}

/-- An operand as the writer writes it, in a place where what stands without parentheses fits. -/
theorem ReadAs.operand (hparen : engine.Parentheses paren opening close) {e r : Expr}
    (he : ReadAs engine e r) {precedence : Nat} {strict : Bool} {Fits : Entry Unit → Prop}
    (hfits : needsParentheses engine.dictionary precedence strict e = false →
      ∀ o, rootOperator? engine.dictionary e = some o → Fits o) :
    ∃ φ, Operand engine Fits
      (parenthesize (needsParentheses engine.dictionary precedence strict e)
        (engine.latex e)).toList φ r := by
  obtain ⟨φ, hφ⟩ := he
  rw [parenthesize_toList]
  exact hφ.operand hparen hfits

/-- The operands behind the first ones of a call, one after the other. -/
theorem Spelling.chain (hparen : engine.Parentheses paren opening close)
    (ho : engine.Operator .infixOp entry trigger) (hleft : entry.associativity ≠ .right)
    (hassociative : engine.isAssociative entry.headName = true) {rest rest' : List Expr}
    (hrest : List.Forall₂ (ReadAs engine) rest rest') {text : List Char} {φ : Phrase}
    {xs : List Expr}
    (hxs : Spelling engine (some entry) text φ (engine.call entry.headName xs)) :
    ∃ ψ, Spelling engine (some entry)
      (((writeOperands engine.dictionary trigger.latex entry.precedence entry.associativity
        false rest).map String.toList).foldl append text) ψ
      (engine.call entry.headName (xs ++ rest')) := by
  induction hrest generalizing text φ xs with
  | nil =>
    rw [List.append_nil]
    exact ⟨φ, hxs⟩
  | @cons b b' rest rest' hb _ ih =>
    obtain ⟨ψ, hψ⟩ := hb.operand hparen fun hneeds o hroot =>
      fitsRight_of_not_needs ho.ruled.kind_eq hneeds hroot
    have hothers := ih (hxs.extend ho hleft hassociative hψ)
    rw [writeOperands_next, List.map_cons, List.map_cons, List.foldl_cons, List.foldl_cons,
      append_of_start ho.word.start, append_after_word text ho.word]
    rw [List.append_assoc xs [b'] rest'] at hothers
    exact hothers

/-- **A call of an operator is read as the call of what its operands are read as.**  More than two
    operands are written one after the other, and read as one call if the operator is
    associative. -/
theorem readAs_between (hparen : engine.Parentheses paren opening close)
    (ho : engine.Operator .infixOp entry trigger) {a b a' b' : Expr} {rest rest' : List Expr}
    (ha : ReadAs engine a a') (hb : ReadAs engine b b')
    (hrest : List.Forall₂ (ReadAs engine) rest rest')
    (hsame : ∀ o, rootOperator? engine.dictionary a = some o → o.kind = .infixOp →
      o.precedence = entry.precedence → o.associativity = .right → entry.associativity = .right)
    (hmany : rest ≠ [] →
      entry.associativity ≠ .right ∧ engine.isAssociative entry.headName = true) :
    ReadAs engine (.call () entry.headName (a :: b :: rest))
      (engine.call entry.headName (a' :: b' :: rest')) := by
  obtain ⟨φ, hφ⟩ := ha.operand hparen fun hneeds o hroot =>
    fitsLeft_of_not_needs hneeds hroot (hsame o hroot)
  obtain ⟨φ', hφ'⟩ := hb.operand hparen fun hneeds o hroot =>
    fitsRight_of_not_needs ho.ruled.kind_eq hneeds hroot
  have hpair := Spelling.between ho hφ hφ'
  unfold ReadAs
  rw [ho.rootOperator (Or.inl rfl), ho.latex_between (by simp), join, String.toList_ofList,
    joinChars, writeOperands_first, writeOperands_next]
  simp only [List.map_cons, List.foldl_cons]
  rw [nil_append, append_of_start ho.word.start, append_after_word _ ho.word]
  cases hrest with
  | nil => exact ⟨_, hpair⟩
  | cons hc hrest =>
    obtain ⟨hleft, hassociative⟩ := hmany (List.cons_ne_nil _ _)
    exact Spelling.chain hparen ho hleft hassociative (.cons hc hrest) hpair

theorem readAs_before (hparen : engine.Parentheses paren opening close)
    (ho : engine.Operator .prefixOp entry trigger) (hfirst : Plain trigger.tokens) {a a' : Expr}
    (ha : ReadAs engine a a')
    (hfits : needsParentheses engine.dictionary entry.precedence false a = false →
      ∀ o, rootOperator? engine.dictionary a = some o → entry.FitsRight o) :
    ReadAs engine (.call () entry.headName [a]) (engine.call entry.headName [a']) := by
  obtain ⟨φ, hφ⟩ := ha.operand hparen hfits
  have hspelling := Spelling.before ho hφ hfirst
  unfold ReadAs
  rw [ho.rootOperator (Or.inr rfl), ho.latex_before, join, String.toList_ofList, joinChars]
  simp only [List.map_cons, List.map_nil, List.foldl_cons, List.foldl_nil]
  have hafter := append_after_word [] ho.word
    (parenthesize (needsParentheses engine.dictionary entry.precedence false a)
      (engine.latex a)).toList
  simp only [List.nil_append] at hafter
  rw [nil_append, hafter]
  exact ⟨_, hspelling⟩

/-! ### Expressions with the same text -/

/-- The expressions have the same text, and as operands they stand in parentheses in the same
    places. -/
structure SameText (engine : Engine Unit) (e e' : Expr) : Prop where
  latex_eq : engine.latex e = engine.latex e'
  precedence_eq : operandPrecedence? engine.dictionary e = operandPrecedence? engine.dictionary e'

namespace SameText

theorem refl (e : Expr) : SameText engine e e := ⟨rfl, rfl⟩

theorem trans {a b c : Expr} (hab : SameText engine a b) (hbc : SameText engine b c) :
    SameText engine a c :=
  ⟨hab.latex_eq.trans hbc.latex_eq, hab.precedence_eq.trans hbc.precedence_eq⟩

theorem parenthesized {e e' : Expr} (h : SameText engine e e') (precedence : Nat) (strict : Bool) :
    parenthesize (needsParentheses engine.dictionary precedence strict e) (engine.latex e) =
      parenthesize (needsParentheses engine.dictionary precedence strict e')
        (engine.latex e') := by
  rw [needsParentheses, needsParentheses, h.latex_eq, h.precedence_eq]

theorem operands {ops ops' : List Expr} (h : List.Forall₂ (SameText engine) ops ops')
    (trigger : String) (precedence : Nat) (associativity : Associativity) (first : Bool) :
    writeOperands engine.dictionary trigger precedence associativity first ops =
      writeOperands engine.dictionary trigger precedence associativity first ops' := by
  induction h generalizing first with
  | nil => rfl
  | cons hop _ ih =>
    have hwritten := hop.parenthesized precedence (isStrictSide associativity first)
    rw [Engine.latex, Engine.latex] at hwritten
    rw [writeOperands, writeOperands, hwritten, ih]

theorem precedence_call {kind : Kind} (ho : engine.Operator kind entry trigger)
    (hkind : kind = .infixOp ∨ kind = .prefixOp) (ops : List Expr) :
    operandPrecedence? engine.dictionary (.call () entry.headName ops) = some entry.precedence := by
  rw [operandPrecedence_eq, ho.rootOperator hkind]
  rfl

theorem between (ho : engine.Operator .infixOp entry trigger) {ops ops' : List Expr}
    (hcount : 2 ≤ ops.length) (h : List.Forall₂ (SameText engine) ops ops') :
    SameText engine (.call () entry.headName ops) (.call () entry.headName ops') := by
  constructor
  · rw [ho.latex_between hcount, ho.latex_between (h.length_eq ▸ hcount), operands h]
  · rw [precedence_call ho (Or.inl rfl), precedence_call ho (Or.inl rfl)]

theorem before (ho : engine.Operator .prefixOp entry trigger) {a a' : Expr}
    (h : SameText engine a a') :
    SameText engine (.call () entry.headName [a]) (.call () entry.headName [a']) := by
  constructor
  · rw [ho.latex_before, ho.latex_before, h.parenthesized]
  · rw [precedence_call ho (Or.inr rfl), precedence_call ho (Or.inr rfl)]

/-- A sign before a call of an operator that binds as tightly, and groups to the left, is written
    where a sign before its first operand is. -/
theorem sign {minus : Entry Unit} {sign : Trigger} (hminus : engine.Operator .prefixOp minus sign)
    {c : Char} (hsign : sign.latex.toList = [c]) (hletter : c.isAlpha = false)
    (hcommand : c ≠ '\\') (ho : engine.Operator .infixOp entry trigger)
    (hprecedence : entry.precedence = minus.precedence) (hleft : entry.associativity = .left)
    (a b : Expr) (rest : List Expr) :
    SameText engine (.call () minus.headName [.call () entry.headName (a :: b :: rest)])
      (.call () entry.headName (.call () minus.headName [a] :: b :: rest)) := by
  have hbare : ∀ ops, needsParentheses engine.dictionary minus.precedence false
      (.call () entry.headName ops) = false := by
    intro ops
    rw [needsParentheses, precedence_call ho (Or.inl rfl), hprecedence]
    simp
  have hsigned : needsParentheses engine.dictionary minus.precedence false
      (.call () minus.headName [a]) = false := by
    rw [needsParentheses, precedence_call hminus (Or.inr rfl)]
    simp
  have hfirst : isStrictSide entry.associativity true = false := by rw [hleft]; rfl
  constructor
  · rw [hminus.latex_before, hbare, ho.latex_between (by simp), ho.latex_between (by simp),
      writeOperands_first, writeOperands_first, hfirst, hprecedence, hsigned]
    have hwritten := hminus.latex_before a
    rw [Engine.latex] at hwritten
    rw [hwritten]
    show join [sign.latex, join (_ :: _)] = join (join [sign.latex, _] :: _)
    have hjoin := joinChars_sign hletter hcommand
    simp only [join, List.map_cons, List.map_nil, String.toList_ofList, hsign, hjoin]
    rfl
  · rw [precedence_call hminus (Or.inr rfl), precedence_call ho (Or.inl rfl), hprecedence]

end SameText

end

end Formula
