import Formula.Proofs.Reader.NormalForm
import Formula.Proofs.Standard.Crosses

/-!
  **Products of sets are between sets.**

  The product of sets looks at its operands before its call is built, and the call opens the groups
  among them.  A group has the domain of what is in it, and neither a sequence nor a group without
  exactly one operand is a set.  So an operand that passed comes to one operand with the same
  domain, however deep the groups are nested, or stays as it is where it is an error.  No other
  notation builds a product of sets, and nothing that is built later changes one.
-/

namespace Formula

open Reader Standard

variable {engine : Engine Unit}

namespace Engine

/-- Every product of sets in the expression has two operands, and both denote sets. -/
def Gated (engine : Engine Unit) (e : Expr) : Prop :=
  ∀ ops, Tree.Occurs (.call () "CartesianProduct" ops) e →
    ∃ a b, ops = [a, b] ∧ engine.isSet a = true ∧ engine.isSet b = true

/-! ### Opening an operand that denotes a set -/

namespace Declared

theorem isSet_sequence (h : Declared engine) (ops : List Expr) :
    engine.isSet (.call () "Sequence" ops) = false := by
  rw [h.isSet_call (by decide)]
  decide

theorem isEmptySequence_of_isSet (h : Declared engine) {e : Expr} (hset : engine.isSet e = true) :
    e.isEmptySequence = false := by
  rw [← Bool.not_eq_true]
  intro hempty
  rw [Tree.isEmptySequence, Bool.and_eq_true] at hempty
  cases e with
  | call label head ops =>
    have hhead : head = "Sequence" := by simpa [Tree.hasHead] using hempty.1
    rw [hhead, h.isSet_sequence] at hset
    cases hset
  | _ => cases hempty.1

/-- What denotes a set comes to one operand of the same domain.  The induction follows the domain,
    which looks into groups with one operand. -/
theorem exists_opened (h : Declared engine) {e : Expr} (hset : engine.isSet e = true) :
    ∃ x, Tree.opened e = [x] ∧ engine.domain x = engine.domain e := by
  fun_induction Engine.domain engine e with
  | case4 label content ih =>
    by_cases hvalid : (Tree.call label "Delimiter" [content]).valid = true
    · have hcontent : engine.isSet content = true := by
        rwa [isSet, isCompatible, engine.domain_group] at hset
      obtain ⟨x, hopened, hsame⟩ := ih hcontent
      refine ⟨x, ?_, hsame⟩
      rw [Tree.opened_group hvalid, h.isEmptySequence_of_isSet hcontent]
      exact hopened
    · refine ⟨.call label "Delimiter" [content], Tree.opened_of_not_grouping ?_, rfl⟩
      rw [Tree.isGrouping_call, Bool.eq_false_iff.mpr hvalid, Bool.false_and]
  | case5 label ops hmany =>
    have htuples : (Domain.literal .tuples).isSubdomain (.literal .sets) = false :=
      Domain.literal_below_literal (by decide)
    rw [isSet, isCompatible, engine.domain_tuple label hmany, htuples] at hset
    cases hset
  | case6 label head ops hhead =>
    refine ⟨.call label head ops, Tree.opened_of_not_grouping ?_, ?_⟩
    · rw [Tree.isGrouping_call]
      by_cases hsequence : head = "Sequence"
      · rw [hsequence, h.isSet_sequence] at hset
        cases hset
      · simp [hhead, hsequence]
    · exact engine.domain_call label hhead ops
  | case7 label head ops =>
    refine ⟨.applied label head ops, Tree.opened_of_not_grouping ?_, by rw [Engine.domain]⟩
    simp [Tree.isGrouping, Tree.hasHead]
  | _ => exact ⟨_, Tree.opened_of_not_grouping rfl, rfl⟩

end Declared

/-! ### Gated expressions -/

theorem Gated.occurs {a e : Expr} (h : engine.Gated e) (ha : Tree.Occurs a e) : engine.Gated a := by
  intro ops hproduct
  exact h ops (hproduct.trans ha)

theorem gated_number (value : Number) : engine.Gated (.number value) := by
  intro ops hproduct
  cases hproduct

theorem gated_symbol (name : String) : engine.Gated (.symbol name) := by
  intro ops hproduct
  cases hproduct

theorem gated_text (value : String) : engine.Gated (.text value) := by
  intro ops hproduct
  cases hproduct

theorem gated_call_of_ne {head : String} {ops : List Expr} (hhead : head ≠ "CartesianProduct")
    (hops : ∀ op ∈ ops, engine.Gated op) : engine.Gated (.call () head ops) := by
  intro inner hproduct
  rcases hproduct.call_cases with heq | ⟨op, hop, hinside⟩
  · cases heq
    exact absurd rfl hhead
  · exact hops op hop inner hinside

theorem gated_unit : engine.Gated Tree.unit := gated_call_of_ne (by decide) (by simp)

theorem gated_build {head : String} {ops : List Expr} (hhead : head ≠ "CartesianProduct")
    (hops : ∀ op ∈ ops, engine.Gated op) : engine.Gated (engine.call head ops) := by
  apply gated_call_of_ne hhead
  intro x hx
  rcases mem_normalOps hx with rfl | ⟨op, hop, hoccurs⟩
  · exact gated_unit
  · exact (hops op hop).occurs hoccurs

/-- The product of two sets is gated, whatever groups they stand in. -/
theorem gated_product (h : Declared engine) {a b : Expr} (ha : engine.Gated a)
    (hb : engine.Gated b) (hsetA : engine.isSet a = true) (hsetB : engine.isSet b = true) :
    engine.Gated (engine.call "CartesianProduct" [a, b]) := by
  obtain ⟨x, hopenedA, hsameA⟩ := h.exists_opened hsetA
  obtain ⟨y, hopenedB, hsameB⟩ := h.exists_opened hsetB
  have hcall : engine.call "CartesianProduct" [a, b] = .call () "CartesianProduct" [x, y] := by
    rw [call, normalOps, if_neg (by decide), h.associative_cartesianProduct]
    simp [hopenedA, hopenedB]
  have hgated : ∀ {e x : Expr}, engine.Gated e → Tree.opened e = [x] → engine.Gated x := by
    intro e x he hopened
    have hmem : x ∈ Tree.opened e := by
      rw [hopened]
      exact List.mem_singleton_self x
    rcases (Tree.mem_opened hmem).2 with rfl | hoccurs
    · exact gated_unit
    · exact he.occurs hoccurs
  rw [hcall]
  intro ops hproduct
  rcases hproduct.call_cases with heq | ⟨op, hop, hinside⟩
  · cases heq
    refine ⟨x, y, rfl, ?_, ?_⟩
    · rw [isSet, isCompatible, hsameA]
      exact hsetA
    · rw [isSet, isCompatible, hsameB]
      exact hsetB
  · rcases List.mem_pair.mp hop with rfl | rfl
    · exact hgated ha hopenedA ops hinside
    · exact hgated hb hopenedB ops hinside

theorem gated_error (code : ErrorCode) (argument source : Option String) :
    engine.Gated (Tree.errorCall code argument source) := by
  apply gated_call_of_ne (by decide)
  intro op hop
  rcases Tree.mem_errorCall hop with ⟨text, rfl⟩ | ⟨head, texts, hhead, rfl⟩
  · exact gated_text text
  · apply gated_call_of_ne
    · rcases hhead with rfl | rfl
      · decide
      · decide
    · intro inner hinner
      obtain ⟨text, -, rfl⟩ := List.mem_map.mp hinner
      exact gated_text text

end Engine

namespace Reader

/-- The rules of the kinds build no product of sets. -/
theorem not_builds_cartesianProduct (h : engine.Declared) : ¬ Builds engine "CartesianProduct" := by
  have hentries : ∀ entry ∈ (standardEntries : List (Entry Unit)), entry.isCustom = false →
      entry.head? ≠ some "CartesianProduct" := by
    decide
  rintro (hlist | hsequence | hoption | ⟨entry, hentry, hrule, hhead⟩)
  · exact absurd hlist (by decide)
  · exact absurd hsequence (by decide)
  · rw [h.options_eq] at hoption
    exact absurd hoption (by decide)
  · rw [h.dictionary_eq, Dictionary.indexed_standard.entries_eq] at hentry
    exact hentries entry hentry hrule hhead

theorem keptByScripts_gated (h : engine.Declared) : KeptByScripts engine engine.Gated where
  elements _ he _ hop := he.occurs (Tree.occurs_of_mem_ops hop)
  build head hhead _ hops := by
    apply Engine.gated_build _ hops
    rintro rfl
    exact absurd hhead (by decide)
  product _ _ ha hb hleft hright := Engine.gated_product h ha hb hleft hright

theorem invariant_gated (h : engine.Declared) : Invariant engine engine.Gated where
  number := Engine.gated_number
  symbol := Engine.gated_symbol
  error := Engine.gated_error
  elements _ he _ hop := he.occurs (Tree.occurs_of_mem_ops hop)
  build head hbuilds _ hops := by
    apply Engine.gated_build _ hops
    rintro rfl
    exact not_builds_cartesianProduct h hbuilds
  script entry hentry handler hparse lhs stop hlhs := by
    rw [h.dictionary_eq, Dictionary.indexed_standard.entries_eq] at hentry
    exact (keptByScripts_gated h).script (scripts_standardEntries entry hentry handler hparse) lhs
      stop hlhs

/-- **Products of sets are between sets.**  Whatever domains are declared for symbols, and for all
    tokens, every product of sets in what is read has two operands and both denote sets, also in
    what could be read in part only. -/
theorem parseTokens_gated (declarations : List (String × Literal)) (tokens : List Token)
    (ops : List Expr)
    (hproduct : Tree.Occurs (.call () "CartesianProduct" ops)
      ((Engine.standard.declareSymbols declarations).parseTokens tokens)) :
    ∃ a b, ops = [a, b] ∧
      (Engine.standard.declareSymbols declarations).isCompatible a (.literal .sets) = true ∧
      (Engine.standard.declareSymbols declarations).isCompatible b (.literal .sets) = true := by
  have h := Engine.declared_declareSymbols declarations
  have s : Setting (Engine.standard.declareSymbols declarations)
      (Engine.standard.declareSymbols declarations).host
      (Engine.standard.declareSymbols declarations).Gated :=
    ⟨Engine.host_answers _, h.accepted, invariant_gated h⟩
  exact (formula_settles s tokens).2 ops hproduct

/-- In `A \times B \times A` the product on the right is a set, so there is one on the left. -/
theorem parseTokens_gated_chain :
    Tree.Occurs (.call () "CartesianProduct"
        [.symbol "A", .call () "CartesianProduct" [.symbol "B", .symbol "A"]])
      ((Engine.standard.declareSymbols [("A", .sets), ("B", .sets)]).parseTokens
        (.char 'A' :: crossTokens ['B', 'A'])) ∧
    ∃ a b, ([.symbol "A", .call () "CartesianProduct" [.symbol "B", .symbol "A"]] : List Expr) =
        [a, b] ∧
      (Engine.standard.declareSymbols [("A", .sets), ("B", .sets)]).isCompatible a
        (.literal .sets) = true ∧
      (Engine.standard.declareSymbols [("A", .sets), ("B", .sets)]).isCompatible b
        (.literal .sets) = true := by
  have hoccurs : Tree.Occurs (.call () "CartesianProduct"
      [.symbol "A", .call () "CartesianProduct" [.symbol "B", .symbol "A"]])
      ((Engine.standard.declareSymbols [("A", .sets), ("B", .sets)]).parseTokens
        (.char 'A' :: crossTokens ['B', 'A'])) := by
    rw [parseTokens_crosses (Engine.declared_declareSymbols _)
      (List.all_eq_true.mp (by decide)), crossValue,
      if_pos (by decide +kernel)]
    exact .here _
  exact ⟨hoccurs, parseTokens_gated _ _ _ hoccurs⟩

end Reader

end Formula
