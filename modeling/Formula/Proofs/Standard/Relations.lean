import Formula.Proofs.Latex.Regrouping
import Formula.Proofs.OperatorTable
import Formula.Proofs.Standard.Operators

/-!
  **Relations between sets are read back unless they regroup.**

  All relations between sets bind equally tightly, but `\in`, `\notin` and `\subseteq` group to the
  left and the others to the right.  A formula of set operators and relations is read back if and
  only if in none of the former the first operand is a call of one of the latter.
-/

namespace Formula

open Latex Reader

/-- The operators between two sets or between an element and a set. -/
def setOperations : List String :=
  ["Element", "NotElement", "Subset", "SubsetEqual", "Superset", "SupersetEqual", "NotSubset",
   "NotSuperset", "SquareSubset", "SquareSuperset", "SetMinus", "SymmetricDifference"]

/-- The operators that chain their operands. -/
def setChains : List String := ["Union", "Intersection"]

/-- Formulas over letters.  Only unions and intersections have more than two operands, and none of
    these has the head of the whole. -/
inductive SetFormula : Expr → Prop where
  | letter {c : Char} (alpha : c.isAlpha = true) : SetFormula (.symbol (String.singleton c))
  | pair {head : String} {a b : Expr} (named : head ∈ setOperations) (lhs : SetFormula a)
      (rhs : SetFormula b) : SetFormula (.call () head [a, b])
  | chain {head : String} {a b : Expr} {rest : List Expr} (named : head ∈ setChains)
      (flat : ∀ op ∈ a :: b :: rest, op.headName? ≠ some head)
      (operands : ∀ op ∈ a :: b :: rest, SetFormula op) :
      SetFormula (.call () head (a :: b :: rest))

/-- The relations that group to the left, and those as tight as they that group to the right. -/
def leftRelations : List String := ["Element", "NotElement", "SubsetEqual"]

def rightRelations : List String :=
  ["Subset", "Superset", "SupersetEqual", "NotSubset", "NotSuperset"]

/-- Somewhere in the formula the first operand of a relation that groups to the left is a call of
    one that groups to the right. -/
def RegroupsRelations (e : Expr) : Prop :=
  ∃ head a rest, Tree.Occurs (.call () head (a :: rest)) e ∧ head ∈ leftRelations ∧
    ∃ first ∈ rightRelations, a.headName? = some first

/-! ### The operators on sets -/

/-- The notations under which the operators are written. -/
def setOperators : List (Entry Unit) :=
  standardEntries.filter fun entry => entry.name.any (setOperations ++ setChains).contains

theorem standard_of_mem_setOperators {entry : Entry Unit} (h : entry ∈ setOperators) :
    entry ∈ standardEntries := List.mem_of_mem_filter h

/-- What the table says about them. -/
theorem table_setOperators : ∀ entry ∈ setOperators,
    entry.kind = .infixOp ∧ entry.isCustom = false ∧ entry.head? = some entry.headName ∧
      entry.precedence ≤ 65534 ∧ entry.name = some entry.headName ∧ entry.write = .byKind ∧
      entry.headName ∉ ["Error", "Sequence", "Delimiter"] := by
  decide +kernel

theorem names_setOperators : ∀ entry ∈ setOperators,
    (standardEntries.filter fun other : Entry Unit => other.name == some entry.headName).length =
      1 := by
  decide +kernel

theorem triggers_setOperators : ∀ entry ∈ setOperators, entry.triggers ≠ [] ∧
    ∀ trigger ∈ entry.triggers.head?,
      (trigger.latex.toList = '\\' :: trigger.latex.toList.tail ∧
        trigger.latex.toList.tail ≠ [] ∧ trigger.latex.toList.tail.all Char.isAlpha = true) ∧
      trigger.latex ∉ ["\\left", "\\right", "\\begin", "\\end", "\\quad", "\\qquad"] ∧
      Alone standardEntries [.infixOp, .postfixOp] (.command trigger.latex) [] := by
  decide +kernel

theorem heads_setOperators :
    (∀ head ∈ setOperations, ∃ o ∈ setOperators, o.headName = head ∧
      (Engine.standard : Engine Unit).isAssociative head ≠ true) ∧
    ∀ head ∈ setChains, ∃ o ∈ setOperators, o.headName = head ∧
      (Engine.standard : Engine Unit).isAssociative head = true := by
  decide +kernel

/-- The relations are the only ones that give way to others. -/
theorem yields_setOperators : ∀ o ∈ setOperators, ∀ o' ∈ setOperators,
    ((Engine.standard : Engine Unit).isAssociative o.headName = true →
      o'.precedence = o.precedence → o'.associativity ≠ .right) ∧
    (o.Yields o' ↔ o.headName ∈ leftRelations ∧ o'.headName ∈ rightRelations) := by
  decide +kernel

/-- A notation is found under a name that no other notation has. -/
theorem byName_standard {entry : Entry Unit} {name : String} (h : entry ∈ standardEntries)
    (hname : entry.name = some name)
    (hunique : (standardEntries.filter fun other : Entry Unit => other.name == some name).length =
      1) : (Engine.standard : Engine Unit).dictionary.byName? name = some entry := by
  obtain ⟨found, hfound⟩ := List.length_eq_one_iff.mp hunique
  have hmem : entry ∈ standardEntries.filter fun other : Entry Unit => other.name == some name :=
    List.mem_filter.mpr ⟨h, by simp [hname]⟩
  rw [hfound, List.mem_singleton] at hmem
  rw [Dictionary.indexed_standard.name_eq, ← List.head?_filter, hfound, hmem]
  rfl

theorem operator_setOperators {entry : Entry Unit} (h : entry ∈ setOperators) :
    ∃ trigger, Engine.standard.Operator .infixOp entry trigger := by
  obtain ⟨hkind, hcustom, hhead, hbounded, hname, hwrite, hnames⟩ :=
    table_setOperators entry h
  obtain ⟨htriggers, hspec⟩ := triggers_setOperators entry h
  obtain ⟨trigger, more, hlist⟩ := List.exists_cons_of_ne_nil htriggers
  have hfirst : entry.triggers.head? = some trigger := by rw [hlist]; rfl
  obtain ⟨⟨htext, hne, hletters⟩, hreserved, halone⟩ := hspec trigger hfirst
  have hcommand : IsOperatorCommand trigger.latex :=
    ⟨⟨_, htext, hne, List.all_eq_true.mp hletters⟩, hreserved⟩
  have hmatched : trigger ∈ entry.matchedTriggers := by
    rw [Entry.matchedTriggers, if_neg (by simp [hkind])]
    exact List.mem_of_head? hfirst
  have hrival : entry.kind ∈ [Kind.infixOp, Kind.postfixOp] := by simp [hkind]
  have hmem := standard_of_mem_setOperators h
  simp only [List.mem_cons, List.not_mem_nil, or_false, not_or] at hnames
  obtain ⟨herror, hsequence, hgroup⟩ := hnames
  exact ⟨trigger, ⟨hkind, hcustom, hhead⟩, hbounded,
    byName_standard hmem hname (names_setOperators entry h), hwrite, hfirst, hcommand.word,
    fun rest _ => only_standard hmem hmatched hrival hcommand.tokens halone rest,
    herror, hsequence, hgroup⟩

theorem operatorSet_setOperators : OperatorSet Engine.standard setOperators where
  operator _ ho := operator_setOperators ho
  chains o ho o' ho' := (yields_setOperators o ho o' ho').1
  letter _ hc := readAs_letter_standard hc

/-! ### Formulas -/

/-- A formula on sets is one over the operators of the table. -/
theorem SetFormula.operatorExpr {e : Expr} (he : SetFormula e) :
    OperatorExpr Engine.standard setOperators e := by
  induction he with
  | letter alpha => exact .letter alpha
  | @pair head a b named lhs rhs iha ihb =>
    obtain ⟨o, ho, rfl, hassociative⟩ := heads_setOperators.1 head named
    apply OperatorExpr.call ho (fun hne => absurd rfl hne) (fun h => absurd h hassociative)
    simp [iha, ihb]
  | @chain head a b rest named flat operands ih =>
    obtain ⟨o, ho, rfl, hassociative⟩ := heads_setOperators.2 head named
    exact .call ho (fun _ => hassociative) (fun _ => flat) ih

theorem regroups_setOperators_iff {e : Expr} : Regroups setOperators e ↔ RegroupsRelations e := by
  constructor
  · rintro ⟨o, ho, o', ho', hyields, a, rest, hoccurs, hhead⟩
    obtain ⟨hleft, hright⟩ := (yields_setOperators o ho o' ho').2.mp hyields
    exact ⟨o.headName, a, rest, hoccurs, hleft, o'.headName, hright, hhead⟩
  · rintro ⟨head, a, rest, hoccurs, hleft, first, hright, hhead⟩
    have hsub : ∀ head ∈ leftRelations ++ rightRelations, head ∈ setOperations := by decide
    obtain ⟨o, ho, rfl, -⟩ := heads_setOperators.1 head (hsub head (by simp [hleft]))
    obtain ⟨o', ho', rfl, -⟩ := heads_setOperators.1 first (hsub first (by simp [hright]))
    exact ⟨o, ho, o', ho', (yields_setOperators o ho o' ho').2.mpr ⟨hleft, hright⟩, a, rest,
      hoccurs, hhead⟩

theorem not_regroupsRelations_symbol (name : String) : ¬ RegroupsRelations (.symbol name) := by
  rw [← regroups_setOperators_iff]
  exact not_regroups_symbol name

theorem regroupsRelations_call {head : String} {operands : List Expr} :
    RegroupsRelations (.call () head operands) ↔
      (head ∈ leftRelations ∧ ∃ a ∈ operands.head?, ∃ first ∈ rightRelations,
        a.headName? = some first) ∨ ∃ op ∈ operands, RegroupsRelations op := by
  constructor
  · rintro ⟨head', a, rest, hoccurs, hleft, hright⟩
    rcases hoccurs.call_cases with heq | ⟨op, hop, hin⟩
    · obtain ⟨-, rfl, rfl⟩ := Tree.call.inj heq
      exact Or.inl ⟨hleft, a, rfl, hright⟩
    · exact Or.inr ⟨op, hop, head', a, rest, hin, hleft, hright⟩
  · rintro (⟨hleft, a, ha, hright⟩ | ⟨op, hop, head', a, rest, hin, hleft, hright⟩)
    · obtain ⟨rest, rfl⟩ := List.head?_eq_some_iff.mp ha
      exact ⟨head, a, rest, .here _, hleft, hright⟩
    · exact ⟨head', a, rest, .operand hop hin, hleft, hright⟩

/-! ### Reading what is written -/

/-- **A formula on sets is read back if and only if no relation in it regroups.** -/
theorem parse_latex_setFormula {e : Expr} (he : SetFormula e) :
    (Engine.standard : Engine Unit).parse (Engine.standard.latex e) = e ↔
      ¬ RegroupsRelations e := by
  rw [← regroups_setOperators_iff]
  exact he.operatorExpr.parse_latex_eq_iff operatorSet_setOperators Engine.accepted_standard
    Engine.parentheses_standard

/-- Relations that group to different sides may stand in a second operand, here in
    `a\subset b\in c\cup d`. -/
theorem parse_latex_setFormula_union :
    SetFormula (.call () "Subset" [.symbol "a",
      .call () "Element" [.symbol "b", .call () "Union" [.symbol "c", .symbol "d"]]]) ∧
    (Engine.standard : Engine Unit).parse (Engine.standard.latex
      (.call () "Subset" [.symbol "a",
        .call () "Element" [.symbol "b", .call () "Union" [.symbol "c", .symbol "d"]]])) =
      .call () "Subset" [.symbol "a",
        .call () "Element" [.symbol "b", .call () "Union" [.symbol "c", .symbol "d"]]] := by
  have ha : SetFormula (.symbol "a") := @SetFormula.letter 'a' (by decide)
  have hb : SetFormula (.symbol "b") := @SetFormula.letter 'b' (by decide)
  have hc : SetFormula (.symbol "c") := @SetFormula.letter 'c' (by decide)
  have hd : SetFormula (.symbol "d") := @SetFormula.letter 'd' (by decide)
  have hunion : SetFormula (.call () "Union" [.symbol "c", .symbol "d"]) :=
    .chain (by decide) (by simp [Tree.headName?]) (by simp [hc, hd])
  have hformula : SetFormula (.call () "Subset" [.symbol "a",
      .call () "Element" [.symbol "b", .call () "Union" [.symbol "c", .symbol "d"]]]) :=
    .pair (by decide) ha (.pair (by decide) hb hunion)
  refine ⟨hformula, (parse_latex_setFormula hformula).mpr ?_⟩
  simp [regroupsRelations_call, not_regroupsRelations_symbol, leftRelations, Tree.headName?]

/-- The first operand of an element relation is not read back if it is an inclusion that groups to
    the right. -/
theorem parse_latex_element_subset :
    SetFormula (.call () "Element" [.call () "Subset" [.symbol "a", .symbol "b"], .symbol "c"]) ∧
    (Engine.standard : Engine Unit).parse (Engine.standard.latex
      (.call () "Element" [.call () "Subset" [.symbol "a", .symbol "b"], .symbol "c"])) ≠
      .call () "Element" [.call () "Subset" [.symbol "a", .symbol "b"], .symbol "c"] := by
  have ha : SetFormula (.symbol "a") := @SetFormula.letter 'a' (by decide)
  have hb : SetFormula (.symbol "b") := @SetFormula.letter 'b' (by decide)
  have hc : SetFormula (.symbol "c") := @SetFormula.letter 'c' (by decide)
  have hformula : SetFormula
      (.call () "Element" [.call () "Subset" [.symbol "a", .symbol "b"], .symbol "c"]) :=
    .pair (by decide) (.pair (by decide) ha hb) hc
  refine ⟨hformula, fun heq => ?_⟩
  have hnone := (hformula.operatorExpr.parse_latex_eq_iff operatorSet_setOperators
    Engine.accepted_standard Engine.parentheses_standard).mp heq
  rw [regroups_setOperators_iff, regroupsRelations_call] at hnone
  simp [leftRelations, rightRelations, Tree.headName?] at hnone

end Formula
