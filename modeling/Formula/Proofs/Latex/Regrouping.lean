import Formula.Proofs.Latex.Leaves
import Formula.Proofs.Normalize
import Formula.Proofs.Occurrence

/-!
  **Operators of equal precedence that group to different sides.**

  The writer looks at one side of an operator only: a first operand of equal precedence stands
  without parentheses in an operator that groups to the left.  If the operand is a call of one that
  groups to the right, the reader takes what follows into it: `a\subset b\in c` is written for
  `(a\subset b)\in c` and read as `a\subset(b\in c)`.

  Calls in which no such operand stands are read back.  All others have the same text as calls in
  which none does: the outer operator moves into the last operand of the inner one, as often as
  there is one more.  So an expression is read back if and only if no such operand stands in it.
-/

namespace Formula

open Latex Reader

variable {engine : Engine Unit} {ops : List (Entry Unit)} {o o' : Entry Unit}

/-- Operators between operands that the engine writes and reads back, over letters that it reads as
    symbols.  An operator that chains more than two operands shares its precedence with none that
    groups to the right. -/
structure OperatorSet (engine : Engine Unit) (ops : List (Entry Unit)) : Prop where
  operator : ∀ o ∈ ops, ∃ trigger, engine.Operator .infixOp o trigger
  chains : ∀ o ∈ ops, ∀ o' ∈ ops, engine.isAssociative o.headName = true →
    o'.precedence = o.precedence → o'.associativity ≠ .right
  letter : ∀ c : Char, c.isAlpha = true →
    ReadAs engine (.symbol (String.singleton c)) (.symbol (String.singleton c))

/-- Expressions over letters and calls of the operators.  Only calls of associative operators have
    more than two operands, and none of these is a call of the same operator. -/
inductive OperatorExpr (engine : Engine Unit) (ops : List (Entry Unit)) : Expr → Prop where
  | letter {c : Char} (alpha : c.isAlpha = true) :
      OperatorExpr engine ops (.symbol (String.singleton c))
  | call {o : Entry Unit} {a b : Expr} {rest : List Expr} (mem : o ∈ ops)
      (many : rest ≠ [] → engine.isAssociative o.headName = true)
      (flat : engine.isAssociative o.headName = true →
        ∀ op ∈ a :: b :: rest, op.headName? ≠ some o.headName)
      (operands : ∀ op ∈ a :: b :: rest, OperatorExpr engine ops op) :
      OperatorExpr engine ops (.call () o.headName (a :: b :: rest))

/-- The operator gives way to the other one in its first operand. -/
def Entry.Yields (o o' : Entry Unit) : Prop :=
  o'.precedence = o.precedence ∧ o'.associativity = .right ∧ o.associativity ≠ .right

instance (o o' : Entry Unit) : Decidable (o.Yields o') := inferInstanceAs (Decidable (_ ∧ _ ∧ _))

/-- Somewhere in the expression, the first operand of a call is a call of an operator that the outer
    one gives way to. -/
def Regroups (ops : List (Entry Unit)) (e : Expr) : Prop :=
  ∃ o ∈ ops, ∃ o' ∈ ops, o.Yields o' ∧ ∃ a rest,
    Tree.Occurs (.call () o.headName (a :: rest)) e ∧ a.headName? = some o'.headName

theorem not_regroups_symbol (name : String) : ¬ Regroups ops (.symbol name) := by
  rintro ⟨o, -, o', -, -, a, rest, hoccurs, -⟩
  cases hoccurs.symbol_eq

theorem Regroups.operand {head : String} {operands : List Expr} {op : Expr} (hop : op ∈ operands)
    (h : Regroups ops op) : Regroups ops (.call () head operands) := by
  obtain ⟨o, ho, o', ho', hyields, a, rest, hoccurs, hhead⟩ := h
  exact ⟨o, ho, o', ho', hyields, a, rest, .operand hop hoccurs, hhead⟩

namespace OperatorSet

/-- The names of the operators tell them apart. -/
theorem eq_of_headName (h : OperatorSet engine ops) (ho : o ∈ ops) (ho' : o' ∈ ops)
    (hname : o.headName = o'.headName) : o = o' := by
  obtain ⟨trigger, hoperator⟩ := h.operator o ho
  obtain ⟨trigger', hoperator'⟩ := h.operator o' ho'
  have hnamed := hoperator.named
  rw [hname, hoperator'.named] at hnamed
  exact (Option.some.inj hnamed).symm

theorem not_associative (h : OperatorSet engine ops) (ho : o ∈ ops)
    (hright : o.associativity = .right) : engine.isAssociative o.headName ≠ true :=
  fun hassociative => h.chains o ho o ho hassociative rfl hright

theorem not_associative_of_yields (h : OperatorSet engine ops) (ho : o ∈ ops) (ho' : o' ∈ ops)
    (hyields : o.Yields o') : engine.isAssociative o.headName ≠ true :=
  fun hassociative => h.chains o ho o' ho' hassociative hyields.1 hyields.2.1

/-- A call regroups at its root or in an operand. -/
theorem not_regroups_call (h : OperatorSet engine ops) (ho : o ∈ ops) {a : Expr} {rest : List Expr}
    (hroot : ∀ o' ∈ ops, o.Yields o' → a.headName? ≠ some o'.headName)
    (hoperands : ∀ op ∈ a :: rest, ¬ Regroups ops op) :
    ¬ Regroups ops (.call () o.headName (a :: rest)) := by
  rintro ⟨p, hp, o', ho', hyields, a', rest', hoccurs, hhead⟩
  rcases hoccurs.call_cases with heq | ⟨op, hop, hin⟩
  · obtain ⟨-, hname, hlist⟩ := Tree.call.inj heq
    obtain rfl := h.eq_of_headName hp ho hname
    obtain ⟨rfl, -⟩ := List.cons.inj hlist
    exact hroot o' ho' hyields hhead
  · exact hoperands op hop ⟨p, hp, o', ho', hyields, a', rest', hin, hhead⟩

end OperatorSet

/-! ### Expressions that do not regroup -/

theorem OperatorExpr.root (h : OperatorSet engine ops) {e : Expr} (he : OperatorExpr engine ops e)
    (hroot : rootOperator? engine.dictionary e = some o) :
    o ∈ ops ∧ e.headName? = some o.headName := by
  cases he with
  | letter => cases hroot
  | @call p a b rest mem =>
    obtain ⟨trigger, hoperator⟩ := h.operator p mem
    obtain rfl : p = o :=
      Option.some.inj ((hoperator.rootOperator (Or.inl rfl) _).symm.trans hroot)
    exact ⟨mem, rfl⟩

variable {paren : Entry Unit} {opening close : Trigger}

/-- **An expression that does not regroup is read as itself.** -/
theorem OperatorExpr.readAs (h : OperatorSet engine ops)
    (hparen : engine.Parentheses paren opening close) {e : Expr} (he : OperatorExpr engine ops e)
    (hregroups : ¬ Regroups ops e) : ReadAs engine e e := by
  induction he with
  | letter alpha => exact h.letter _ alpha
  | @call o a b rest mem many flat operands ih =>
    obtain ⟨trigger, hoperator⟩ := h.operator o mem
    have hreads : ∀ op ∈ a :: b :: rest, ReadAs engine op op := fun op hop =>
      ih op hop fun hop' => hregroups (hop'.operand hop)
    have hcall : engine.call o.headName (a :: b :: rest) =
        .call () o.headName (a :: b :: rest) :=
      Engine.call_of_none (fun op hop => (hreads op hop).bare)
        fun hassociative op hop => Tree.isValidCall_of_headName (flat hassociative op hop)
    have hothers : List.Forall₂ (ReadAs engine) rest rest :=
      List.forall₂_same.mpr fun op hop => hreads op (by simp [hop])
    have hread : ReadAs engine (.call () o.headName (a :: b :: rest))
        (engine.call o.headName (a :: b :: rest)) := by
      apply readAs_between hparen hoperator (hreads a (by simp)) (hreads b (by simp)) hothers
      · intro o' hroot _ hprecedence hright
        by_contra hleft
        obtain ⟨ho', hhead⟩ := (operands a (by simp)).root h hroot
        exact hregroups ⟨o, mem, o', ho', ⟨hprecedence, hright, hleft⟩, a, _, .here _, hhead⟩
      · intro hne
        have hassociative := many hne
        exact ⟨fun hright => h.not_associative mem hright hassociative, hassociative⟩
    rwa [hcall] at hread

/-! ### Expressions that regroup -/

/-- Two operands with an operator between them, as characters. -/
theorem Latex.joinChars_between {word : List Char} {tokens : List Token} (h : Word word tokens)
    (x y : List Char) : joinChars [x, word, y] = x ++ word ++ gap word y ++ y := by
  show append (append (append [] x) word) y = _
  rw [nil_append, append_of_start h.start, append_after_word x h]

theorem Latex.startsWithLetter_append_word {word : List Char} {tokens : List Token}
    (h : Word word tokens) (text after : List Char) :
    startsWithLetter (text ++ word ++ after) = startsWithLetter text := by
  have hne : word ≠ [] := by
    rintro rfl
    obtain ⟨c, hc, -⟩ := h.solid
    cases hc
  cases text with
  | cons c text => rfl
  | nil =>
    rw [List.nil_append, startsWithLetter, head?_append_of_ne_nil hne]
    exact h.start

/-- Two operators one after the other are written in the same way wherever the operand between
    them belongs. -/
theorem Latex.joinChars_rotate {word word' : List Char} {tokens tokens' : List Token}
    (h : Word word tokens) (h' : Word word' tokens') (x y z : List Char) :
    joinChars [joinChars [x, word', y], word, z] =
      joinChars [x, word', joinChars [y, word, z]] := by
  have hstart : gap word' (y ++ word ++ gap word z ++ z) = gap word' y := by
    unfold gap
    rw [List.append_assoc (y ++ word), startsWithLetter_append_word h]
  rw [joinChars_between h, joinChars_between h', joinChars_between h', joinChars_between h, hstart]
  simp only [List.append_assoc]

theorem Engine.Operator.latex_pair {trigger : Trigger} (ho : engine.Operator .infixOp o trigger)
    (a b : Expr) :
    engine.latex (.call () o.headName [a, b]) =
      join [parenthesize (needsParentheses engine.dictionary o.precedence
          (isStrictSide o.associativity true) a) (engine.latex a),
        trigger.latex,
        parenthesize (needsParentheses engine.dictionary o.precedence
          (isStrictSide o.associativity false) b) (engine.latex b)] := by
  rw [ho.latex_between (by simp), writeOperands_first, writeOperands_next]
  rfl

/-- An operator behind a call of one that it gives way to is written as if it stood in the last
    operand of that call. -/
theorem SameText.rotate {trigger trigger' : Trigger} (ho : engine.Operator .infixOp o trigger)
    (ho' : engine.Operator .infixOp o' trigger') (hyields : o.Yields o') (x y z : Expr) :
    SameText engine (.call () o.headName [.call () o'.headName [x, y], z])
      (.call () o'.headName [x, .call () o.headName [y, z]]) := by
  obtain ⟨hprecedence, hright, hleft⟩ := hyields
  have hfirst : isStrictSide o.associativity true = false := by
    cases hside : o.associativity with
    | right => exact absurd hside hleft
    | left => rfl
    | nonAssociative => rfl
  have hlast : isStrictSide o'.associativity false = false := by
    rw [hright]
    rfl
  -- neither operand stands in parentheses, because the precedences are equal
  have hbare : ∀ {p : Entry Unit} {sign : Trigger} (operands : List Expr),
      engine.Operator .infixOp p sign → p.precedence = o.precedence →
        needsParentheses engine.dictionary o.precedence false (.call () p.headName operands) =
          false := by
    intro p sign operands hp heq
    rw [needsParentheses, SameText.precedence_call hp (Or.inl rfl), heq]
    simp
  constructor
  · rw [ho.latex_pair, ho'.latex_pair, ho'.latex_pair, ho.latex_pair, hfirst, hlast, hprecedence,
      hbare _ ho' hprecedence, hbare _ ho rfl]
    show join [join [_, _, _], _, _] = join [_, _, join [_, _, _]]
    simp only [join, List.map_cons, List.map_nil, String.toList_ofList]
    rw [joinChars_rotate ho.word ho'.word]
  · rw [SameText.precedence_call ho (Or.inl rfl), SameText.precedence_call ho' (Or.inl rfl),
      hprecedence]

/-- The second expression has the text of the first and does not regroup. -/
structure Regrouped (engine : Engine Unit) (ops : List (Entry Unit)) (e e' : Expr) : Prop where
  expr : OperatorExpr engine ops e'
  regroups : ¬ Regroups ops e'
  sameText : SameText engine e e'
  eq_of_none : ¬ Regroups ops e → e' = e
  head : e'.headName? = e.headName? ∨
    ∃ o ∈ ops, e'.headName? = some o.headName ∧ o.associativity = .right

namespace Regrouped

theorem self {e : Expr} (he : OperatorExpr engine ops e) (hregroups : ¬ Regroups ops e) :
    Regrouped engine ops e e := ⟨he, hregroups, .refl e, fun _ => rfl, Or.inl rfl⟩

/-- Where the operator gives way, it moves into the last operand of its first operand. -/
theorem moved (h : OperatorSet engine ops) (ho : o ∈ ops) (ho' : o' ∈ ops) (hyields : o.Yields o')
    {x y b e' : Expr} (hx : OperatorExpr engine ops x) (hregroups : ¬ Regroups ops x)
    (he' : Regrouped engine ops (.call () o.headName [y, b]) e') :
    Regrouped engine ops (.call () o.headName [.call () o'.headName [x, y], b])
      (.call () o'.headName [x, e']) := by
  obtain ⟨trigger, hoperator⟩ := h.operator o ho
  obtain ⟨trigger', hoperator'⟩ := h.operator o' ho'
  have hexpr : ∀ op ∈ [x, e'], OperatorExpr engine ops op ∧ ¬ Regroups ops op := by
    simp only [List.forall_mem_cons]
    exact ⟨⟨hx, hregroups⟩, ⟨he'.expr, he'.regroups⟩, by simp⟩
  refine ⟨?_, ?_, ?_, ?_, ?_⟩
  · apply OperatorExpr.call ho' (fun hne => absurd rfl hne)
    · intro hassociative
      exact absurd hassociative (h.not_associative ho' hyields.2.1)
    · exact fun op hop => (hexpr op hop).1
  · apply h.not_regroups_call ho'
    · intro p _ hright
      exact absurd hyields.2.1 hright.2.2
    · exact fun op hop => (hexpr op hop).2
  · have hinner : List.Forall₂ (SameText engine) [x, .call () o.headName [y, b]] [x, e'] :=
      .cons (.refl x) (.cons he'.sameText .nil)
    exact (SameText.rotate hoperator hoperator' hyields x y b).trans
      (SameText.between hoperator' (by simp) hinner)
  · intro hnone
    exact absurd ⟨o, ho, o', ho', hyields, _, _, .here _, rfl⟩ hnone
  · exact Or.inr ⟨o', ho', rfl, hyields.2.1⟩

/-- Where the operator does not give way, the call stays as it is. -/
theorem stays (h : OperatorSet engine ops) (ho : o ∈ ops) {a b : Expr} {rest : List Expr}
    (many : rest ≠ [] → engine.isAssociative o.headName = true)
    (flat : engine.isAssociative o.headName = true →
      ∀ op ∈ a :: b :: rest, op.headName? ≠ some o.headName)
    (hoperands : ∀ op ∈ a :: b :: rest, OperatorExpr engine ops op ∧ ¬ Regroups ops op)
    (hroot : ∀ o' ∈ ops, o.Yields o' → a.headName? ≠ some o'.headName) :
    Regrouped engine ops (.call () o.headName (a :: b :: rest))
      (.call () o.headName (a :: b :: rest)) := by
  apply self
  · exact .call ho many flat fun op hop => (hoperands op hop).1
  · exact h.not_regroups_call ho hroot fun op hop => (hoperands op hop).2

/-- An operator moves until it does not give way any more. -/
theorem exists_of_operands (h : OperatorSet engine ops) (ho : o ∈ ops) {a b : Expr}
    {rest : List Expr} (many : rest ≠ [] → engine.isAssociative o.headName = true)
    (flat : engine.isAssociative o.headName = true →
      ∀ op ∈ a :: b :: rest, op.headName? ≠ some o.headName)
    (hothers : ∀ op ∈ b :: rest, OperatorExpr engine ops op ∧ ¬ Regroups ops op)
    (ha : OperatorExpr engine ops a) (hregroups : ¬ Regroups ops a) :
    ∃ e', Regrouped engine ops (.call () o.headName (a :: b :: rest)) e' := by
  induction ha with
  | @letter c alpha =>
    have hletter : OperatorExpr engine ops (.symbol (String.singleton c)) := .letter alpha
    have hoperands := List.forall_mem_cons.mpr ⟨⟨hletter, hregroups⟩, hothers⟩
    exact ⟨_, stays h ho many flat hoperands fun o' _ _ hhead => nomatch hhead⟩
  | @call p x y inner mem many' flat' operands ih =>
    by_cases hyields : o.Yields p
    · -- neither operator chains, so the inner call has a last operand to move into
      have hnot := h.not_associative_of_yields ho mem hyields
      obtain rfl : rest = [] := by
        by_contra hne
        exact hnot (many hne)
      obtain rfl : inner = [] := by
        by_contra hne
        exact h.not_associative mem hyields.2.1 (many' hne)
      have hinner : ∀ op ∈ [x, y], ¬ Regroups ops op := fun op hop hop' =>
        hregroups (hop'.operand hop)
      obtain ⟨e', he'⟩ := ih y (by simp) (fun hassociative => absurd hassociative hnot)
        (hinner y (by simp))
      exact ⟨_, moved h ho mem hyields (operands x (by simp)) (hinner x (by simp)) he'⟩
    · have hcall := OperatorExpr.call mem many' flat' operands
      have hoperands := List.forall_mem_cons.mpr ⟨⟨hcall, hregroups⟩, hothers⟩
      refine ⟨_, stays h ho many flat hoperands ?_⟩
      intro o' ho' hyields' hhead
      obtain rfl := h.eq_of_headName mem ho' (Option.some.inj hhead)
      exact hyields hyields'

/-- An operand that does not move its root keeps its head. -/
theorem headName_ne {e e' : Expr} (hmoved : Regrouped engine ops e e')
    (h : OperatorSet engine ops) (ho : o ∈ ops)
    (hassociative : engine.isAssociative o.headName = true)
    (he : e.headName? ≠ some o.headName) : e'.headName? ≠ some o.headName := by
  rcases hmoved.head with heq | ⟨o', ho', hhead, hright⟩
  · rw [heq]
    exact he
  · intro heq
    rw [hhead] at heq
    obtain rfl := h.eq_of_headName ho' ho (Option.some.inj heq)
    exact h.not_associative ho' hright hassociative

end Regrouped

/-- **Every expression has the text of one that does not regroup.** -/
theorem OperatorExpr.exists_regrouped (h : OperatorSet engine ops) {e : Expr}
    (he : OperatorExpr engine ops e) : ∃ e', Regrouped engine ops e e' := by
  induction he with
  | letter alpha => exact ⟨_, .self (.letter alpha) (not_regroups_symbol _)⟩
  | @call o a b rest mem many flat operands ih =>
    obtain ⟨trigger, hoperator⟩ := h.operator o mem
    obtain ⟨operands', hoperands⟩ := exists_forall₂ ih
    obtain ⟨a', tail, ha, htail, rfl⟩ := List.forall₂_cons_left_iff.mp hoperands
    obtain ⟨b', rest', hb, hrest, rfl⟩ := List.forall₂_cons_left_iff.mp htail
    have hmoved : ∀ op' ∈ a' :: b' :: rest', OperatorExpr engine ops op' ∧ ¬ Regroups ops op' := by
      intro op' hop'
      obtain ⟨op, -, hop⟩ := exists_of_mem_forall₂ hoperands hop'
      exact ⟨hop.expr, hop.regroups⟩
    have hflat : engine.isAssociative o.headName = true →
        ∀ op' ∈ a' :: b' :: rest', op'.headName? ≠ some o.headName := by
      intro hassociative op' hop'
      obtain ⟨op, hop, hmoved⟩ := exists_of_mem_forall₂ hoperands hop'
      exact hmoved.headName_ne h mem hassociative (flat hassociative op hop)
    have hmany : rest' ≠ [] → engine.isAssociative o.headName = true := by
      intro hne
      apply many
      rintro rfl
      exact hne (List.forall₂_nil_left_iff.mp hrest)
    obtain ⟨ha', hothers⟩ := List.forall_mem_cons.mp hmoved
    obtain ⟨e', he'⟩ := Regrouped.exists_of_operands h mem hmany hflat hothers ha'.1 ha'.2
    have htext := SameText.between hoperator (by simp) (hoperands.imp fun _ _ hop => hop.sameText)
    refine ⟨e', he'.expr, he'.regroups, htext.trans he'.sameText, ?_, he'.head⟩
    intro hnone
    have heq := eq_of_forall₂ hoperands fun op hop op' hop' =>
      hop'.eq_of_none fun hregroups => hnone (hregroups.operand hop)
    rw [heq] at he'
    exact he'.eq_of_none hnone

/-- **An expression is read back if and only if it does not regroup.** -/
theorem OperatorExpr.parse_latex_eq_iff (h : OperatorSet engine ops) (haccepted : engine.Accepted)
    (hparen : engine.Parentheses paren opening close) {e : Expr} (he : OperatorExpr engine ops e) :
    engine.parse (engine.latex e) = e ↔ ¬ Regroups ops e := by
  obtain ⟨e', hmoved⟩ := he.exists_regrouped h
  have hparse : engine.parse (engine.latex e) = e' := by
    rw [hmoved.sameText.latex_eq]
    exact (hmoved.expr.readAs h hparen hmoved.regroups).parse_eq haccepted
  rw [hparse]
  constructor
  · rintro rfl
    exact hmoved.regroups
  · exact hmoved.eq_of_none

end Formula
