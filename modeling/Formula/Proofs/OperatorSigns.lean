import Formula.Proofs.Dictionary.Longest
import Formula.Proofs.Misreading
import Mathlib.Data.List.Pairwise

/-!
  **Operators that share their signs.**

  The triggers of operators between operands are written with signs, and one may be the start of
  another, as `<` is of `<=`.  In a chain of letters and operators a trigger ends where a letter
  stands, so the one that is written is the longest that matches.  The reader does not always take
  it: it leaves out the operators that bind more loosely than its bound and takes the longest of
  the others.  Where a shorter one is among these it is taken, and the signs behind it make no
  operand.

  A chain in which this happens nowhere is `Uncut`, and it is grouped by precedence like any chain.
  Every other chain is misread.
-/

namespace Formula

open Reader

/-! ### Tables of signs -/

/-- The character is no digit, no letter and no end of a cell. -/
structure IsSign (c : Char) : Prop where
  digit : c.isDigit = false
  letter : Text.isAlphabetic c = false
  cell : c ≠ '&'

/-- The dictionary of the engine consists of operators between operands that are read by the rule
    of their kind.  The triggers are written with signs; no two are the same, and no two operators
    have the same head. -/
structure SignOperators (engine : Engine Unit) (ops : List (Entry Unit)) : Prop
    extends InfixOnly engine ops where
  signs : ∀ o ∈ ops, ∀ t ∈ o.triggers, ∀ token ∈ t.tokens, ∃ c, token = .char c ∧ IsSign c
  triggers_nodup : (ops.flatMap fun o => o.triggers.map Trigger.tokens).Nodup
  heads_nodup : (ops.map Entry.headName).Nodup
  promotion : engine.options.promotion ≠ .never

/-! ### Where a chain is cut -/

/-- With the bound another operator is read at the step: one that the bound lets pass, and a
    trigger of it starts the trigger of the step. -/
def Step.Cut (ops : List (Entry Unit)) (bound : Nat) (s : Step) : Prop :=
  ∃ o ∈ ops, ∃ t ∈ o.triggers, t.tokens <+: s.trigger.tokens ∧ bound ≤ o.precedence

/-- The first of the steps that binds more loosely than the bound, where reading with the bound has
    to end, is not cut. -/
def EndsWhole (ops : List (Entry Unit)) (bound : Nat) (steps : List Step) : Prop :=
  ∀ s ∈ steps.find? fun s => s.operator.precedence < bound, ¬ s.Cut ops bound

/-- Behind every operator of the chain its right side ends at an operator that is not cut. -/
def Uncut (ops : List (Entry Unit)) : List Step → Prop
  | [] => True
  | s :: steps => EndsWhole ops (rightBound s.operator) steps ∧ Uncut ops steps

section

variable {ops : List (Entry Unit)} {bound : Nat}

theorem endsWhole_nil : EndsWhole ops bound [] := by
  rintro s ⟨⟩

theorem endsWhole_zero (steps : List Step) : EndsWhole ops 0 steps := by
  intro s hs
  have hloose := List.find?_some hs
  simp at hloose

/-- Steps that bind tightly enough can be left out in front. -/
theorem endsWhole_append {taken : List Step}
    (htaken : ∀ s ∈ taken, bound ≤ s.operator.precedence) (left : List Step) :
    EndsWhole ops bound (taken ++ left) ↔ EndsWhole ops bound left := by
  have hnone : taken.find? (fun s => s.operator.precedence < bound) = none := by
    rw [List.find?_eq_none]
    intro s hs
    simpa using htaken s hs
  rw [EndsWhole, EndsWhole, List.find?_append, hnone, Option.none_or]

theorem endsWhole_cons {s : Step} (hs : bound ≤ s.operator.precedence) (steps : List Step) :
    EndsWhole ops bound (s :: steps) ↔ EndsWhole ops bound steps :=
  @endsWhole_append ops bound [s] (by simpa using hs) steps

theorem endsWhole_loose {s : Step} (hs : s.operator.precedence < bound) (steps : List Step) :
    EndsWhole ops bound (s :: steps) ↔ ¬ s.Cut ops bound := by
  rw [EndsWhole, List.find?_cons_of_pos (by simpa using hs)]
  simp

theorem Uncut.suffix {steps left : List Step} (h : Uncut ops steps) (hleft : left <:+ steps) :
    Uncut ops left := by
  induction steps with
  | nil => rwa [List.suffix_nil.mp hleft]
  | cons s steps ih =>
    rcases List.suffix_cons_iff.mp hleft with rfl | hleft
    · exact h
    · exact ih h.2 hleft

end

/-! ### What stands at an operator -/

/-- The heads of the operators in a chain. -/
def headNames (order : List (Char ⊕ Entry Unit)) : List String :=
  order.filterMap fun x => x.getRight?.map Entry.headName

theorem headNames_append (xs ys : List (Char ⊕ Entry Unit)) :
    headNames (xs ++ ys) = headNames xs ++ headNames ys := List.filterMap_append

theorem headNames_stepOrder (steps : List Step) :
    headNames (stepOrder steps) = steps.map (·.operator.headName) := by
  induction steps with
  | nil => rfl
  | cons s steps ih =>
    rw [stepOrder, List.flatMap_cons, headNames_append]
    exact congrArg _ ih

theorem SameTokens.of_spells {rest tokens : List Token} (h : Spells rest tokens) :
    SameTokens rest tokens := by
  unfold Spells at h
  rw [SameTokens, ← h, List.filter_filter]
  simp only [Bool.and_self]

namespace SignOperators

variable {engine : Engine Unit} {ops : List (Entry Unit)}

theorem free_letter (h : SignOperators engine ops) {c : Char} (hc : Text.isAlphabetic c = true) :
    engine.Free (.char c) := by
  apply h.free_of_triggers
  intro o ho t ht hhead
  obtain ⟨c', hc', hsign⟩ := h.signs o ho t ht _ (List.mem_of_head? hhead)
  cases hc'
  rw [hsign.letter] at hc
  cases hc

theorem opens_sign (h : SignOperators engine ops) {c : Char} (hc : IsSign c) :
    Opens engine (.char c) :=
  ⟨rfl, by simpa [isBoundary] using hc.cell, h.isCloser_eq _⟩

/-- A trigger is a sign and maybe others. -/
theorem exists_tokens_cons (h : SignOperators engine ops) {o : Entry Unit} (ho : o ∈ ops)
    {t : Trigger} (ht : t ∈ o.triggers) : ∃ c signs, t.tokens = .char c :: signs ∧ IsSign c := by
  have hne : t.tokens ≠ [] := by
    have hreading : (⟨o, t⟩ : Reading Unit) ∈ allReadings ops :=
      List.mem_flatMap.mpr ⟨o, ho, List.mem_map_of_mem ht⟩
    apply h.indexed.tokens_ne_nil hreading
    rw [h.kind_eq o ho]
    decide
  obtain ⟨x, signs, htokens⟩ := List.exists_cons_of_ne_nil hne
  obtain ⟨c, rfl, hc⟩ := h.signs o ho t ht x (by rw [htokens]; exact List.mem_cons_self)
  exact ⟨c, signs, htokens, hc⟩

/-- A trigger tells the operator. -/
theorem eq_of_tokens (h : SignOperators engine ops) {o o' : Entry Unit} (ho : o ∈ ops)
    (ho' : o' ∈ ops) {t t' : Trigger} (ht : t ∈ o.triggers) (ht' : t' ∈ o'.triggers)
    (htokens : t.tokens = t'.tokens) : o = o' := by
  by_contra hne
  have hsymm : Std.Symm (Function.onFun List.Disjoint fun o : Entry Unit =>
      o.triggers.map Trigger.tokens) := ⟨fun _ _ hxy _ ha hb => hxy hb ha⟩
  have hdisjoint := (List.nodup_flatMap.mp h.triggers_nodup).2.forall ho ho' hne
  refine hdisjoint (List.mem_map_of_mem ht) ?_
  rw [htokens]
  exact List.mem_map_of_mem ht'

section

variable {s : Step} {rest more : List Token}
  (hrest : Spells rest (s.trigger.tokens ++ .char s.letter :: more))

include hrest

/-- The match of a trigger at the step: it starts the trigger of the step, and the other signs of
    that are left. -/
theorem exists_reading (h : SignOperators engine ops) (hs : s.Of ops) {found : TriggerMatch Unit}
    (hfound : found ∈ engine.dictionary.candidates rest [.infixOp, .postfixOp]) :
    ∃ r : Reading Unit, r.entry ∈ ops ∧ r.trigger ∈ r.entry.triggers ∧ found.entry = r.entry ∧
      r.match? rest = some found ∧ ∃ signs, s.trigger.tokens = r.trigger.tokens ++ signs ∧
        Spells found.after (signs ++ .char s.letter :: more) := by
  obtain ⟨first, tail, rfl, r, hr, -, hmatch⟩ := Dictionary.mem_candidates hfound
  obtain ⟨hentry, htrigger, -⟩ := h.indexed.mem_readings hr
  rw [h.matchedTriggers_eq hentry] at htrigger
  obtain ⟨after, hafter, rfl⟩ := Option.map_eq_some_iff.mp hmatch
  refine ⟨r, hentry, htrigger, rfl, hmatch, ?_⟩
  obtain ⟨taken, htaken, hsplit⟩ := exists_taken (Trigger.not_isSpace _) hafter
  rw [hsplit, Spells, List.filter_append, htaken.tokens_eq, List.append_eq_append_iff] at hrest
  rcases hrest with ⟨signs, hsigns, hleft⟩ | ⟨beyond, hbeyond, hleft⟩
  · exact ⟨signs, hsigns, hleft⟩
  · cases beyond with
    | nil => exact ⟨[], by rw [hbeyond, List.append_nil, List.append_nil], hleft.symm⟩
    | cons x beyond =>
      -- the letter of the step is no sign
      obtain ⟨rfl, -⟩ := List.cons.inj hleft
      have hmem : Token.char s.letter ∈ r.trigger.tokens := by
        rw [hbeyond]
        simp
      obtain ⟨c, hc, hsign⟩ := h.signs _ hentry _ htrigger _ hmem
      cases hc
      have hletter := hs.letter
      rw [hsign.letter] at hletter
      cases hletter

/-- Every trigger that starts the trigger of the step matches there. -/
theorem exists_candidate (h : SignOperators engine ops) (hs : s.Of ops)
    (hsettled : skipSpace rest = rest) {o : Entry Unit} (ho : o ∈ ops) {t : Trigger}
    (ht : t ∈ o.triggers) (hstart : t.tokens <+: s.trigger.tokens) :
    ∃ found ∈ engine.dictionary.candidates rest [.infixOp, .postfixOp],
      found.entry = o ∧ (Reading.mk o t).match? rest = some found := by
  obtain ⟨signs, hsigns⟩ := hstart
  obtain ⟨c, others, htokens, -⟩ := h.exists_tokens_cons hs.operator hs.trigger
  rw [htokens, List.cons_append] at hrest
  obtain ⟨tail, hskip, htail⟩ := hrest.cons rfl
  rw [hsettled] at hskip
  have hmatch : (matchTokens t.tokens rest).isSome = true := by
    rw [hskip, (SameTokens.of_spells htail).isSome_matchTokens, ← List.cons_append, ← htokens,
      ← hsigns, List.append_assoc, matchTokens_append (Trigger.not_isSpace t)]
    rfl
  obtain ⟨after, hafter⟩ := Option.isSome_iff_exists.mp hmatch
  have hmem : (⟨o, t⟩ : Reading Unit) ∈ matchingReadings ops [.infixOp, .postfixOp] rest 0 := by
    rw [mem_matchingReadings]
    refine ⟨List.mem_flatMap.mpr ⟨o, ho, List.mem_map_of_mem ht⟩, ?_, ?_, after, hafter⟩
    · rw [h.kind_eq o ho]
      decide
    · simp [h.kind_eq o ho]
  refine ⟨Reading.found rest ⟨o, t⟩, ?_, Reading.found_entry rest _, match?_of_mem hmem⟩
  have hcandidates := h.indexed.candidates_eq_found rest 0 [.infixOp, .postfixOp]
  rw [List.drop_zero] at hcandidates
  rw [hcandidates]
  exact List.mem_map_of_mem (List.mem_mergeSort.mpr hmem)

/-- Of the operators that the bound lets pass at the step the first is its own, unless that one
    binds too loosely and the step is cut. -/
theorem first_cases (h : SignOperators engine ops) (hs : s.Of ops)
    (hsettled : skipSpace rest = rest) {bound : Nat} {found : TriggerMatch Unit}
    {others : List (TriggerMatch Unit)}
    (hmatches : (engine.dictionary.candidates rest [.infixOp, .postfixOp]).filter
      (fun candidate => bound ≤ candidate.entry.precedence) = found :: others) :
    found.entry ∈ ops ∧ bound ≤ found.entry.precedence ∧
      (found.entry = s.operator ∧ Spells found.after (.char s.letter :: more) ∨
        found.entry.headName ≠ s.operator.headName ∧ s.operator.precedence < bound ∧
          s.Cut ops bound ∧ ∃ c ts, IsSign c ∧ Spells found.after (.char c :: ts)) := by
  have hmem : found ∈ (engine.dictionary.candidates rest [.infixOp, .postfixOp]).filter
      (fun candidate => bound ≤ candidate.entry.precedence) := by
    rw [hmatches]
    exact List.mem_cons_self
  obtain ⟨hcandidate, hpasses⟩ := List.mem_filter.mp hmem
  have hbound : bound ≤ found.entry.precedence := of_decide_eq_true hpasses
  obtain ⟨r, hentry, htrigger, hsame, hmatch, signs, hsigns, hafter⟩ :=
    h.exists_reading hrest hs hcandidate
  refine ⟨hsame ▸ hentry, hbound, ?_⟩
  cases signs with
  | nil =>
    rw [List.append_nil] at hsigns
    left
    rw [hsame]
    exact ⟨h.eq_of_tokens hentry hs.operator htrigger hs.trigger hsigns.symm, hafter⟩
  | cons x signs =>
    right
    have hloose : s.operator.precedence < bound := by
      -- its own operator takes more, so it would come first
      by_contra htight
      obtain ⟨own, hown, hownEntry, hownMatch⟩ :=
        h.exists_candidate hrest hs hsettled hs.operator hs.trigger (List.prefix_refl _)
      have hpasses : decide (bound ≤ own.entry.precedence) = true := by
        rw [hownEntry]
        simpa using Nat.le_of_not_lt htight
      have hle : own.consumed ≤ found.consumed :=
        h.indexed.consumed_le_first hmatches own hown hpasses
      rw [Reading.consumed_le_iff hmatch hownMatch, hsigns, List.length_append,
        List.length_cons] at hle
      omega
    have hne : found.entry ≠ s.operator := by
      intro heq
      rw [heq] at hbound
      omega
    obtain ⟨c, rfl, hc⟩ := h.signs _ hs.operator _ hs.trigger x (by rw [hsigns]; simp)
    refine ⟨?_, hloose, ⟨r.entry, hentry, r.trigger, htrigger, ⟨_, hsigns.symm⟩, ?_⟩, c, _, hc,
      hafter⟩
    · intro hhead
      rw [hsame] at hhead hne
      exact hne (List.inj_on_of_nodup_map h.heads_nodup hentry hs.operator hhead)
    · rwa [← hsame]

/-- The reader ends at a step that the bound does not let pass, if it is not cut. -/
theorem halts_of_none (h : SignOperators engine ops) (hs : s.Of ops)
    (hsettled : skipSpace rest = rest) {bound : Nat}
    (hmatches : (engine.dictionary.candidates rest [.infixOp, .postfixOp]).filter
      (fun candidate => bound ≤ candidate.entry.precedence) = []) :
    Halts engine bound rest ∧ s.operator.precedence < bound ∧ ¬ s.Cut ops bound := by
  have hnone : ∀ found ∈ engine.dictionary.candidates rest [.infixOp, .postfixOp],
      found.entry.precedence < bound := by
    intro found hfound
    have hfails := List.filter_eq_nil_iff.mp hmatches found hfound
    simpa using hfails
  obtain ⟨own, hown, hownEntry, -⟩ :=
    h.exists_candidate hrest hs hsettled hs.operator hs.trigger (List.prefix_refl _)
  refine ⟨⟨hsettled, Or.inr ⟨List.ne_nil_of_mem hown, hnone⟩⟩, hownEntry ▸ hnone own hown, ?_⟩
  rintro ⟨o, ho, t, ht, hstart, hpasses⟩
  obtain ⟨found, hfound, hentry, -⟩ := h.exists_candidate hrest hs hsettled ho ht hstart
  have hloose := hnone found hfound
  rw [hentry] at hloose
  omega

end

end SignOperators

/-- What reading on behind `lhs` has come to where no operator was cut. -/
structure ReadWhole (ops : List (Entry Unit)) (bound : Nat) (lhs : Grouping) (steps : List Step)
    (e : Grouping) (left : List Step) : Prop extends Climbed ops bound lhs steps e left where
  taken : ∃ taken, steps = taken ++ left ∧ ∀ s ∈ taken, bound ≤ s.operator.precedence
  endsWhole : EndsWhole ops bound steps
  uncut : Uncut ops left → Uncut ops steps

namespace ReadWhole

variable {ops : List (Entry Unit)} {bound : Nat}

theorem stay {lhs : Grouping} (hlhs : lhs.Respects) {steps : List Step}
    (hloose : ∀ s ∈ steps.head?, s.operator.precedence < bound ∧ ¬ s.Cut ops bound) :
    ReadWhole ops bound lhs steps lhs steps where
  toClimbed := .stay hlhs fun s hs => (hloose s hs).1
  taken := ⟨[], rfl, by rintro s ⟨⟩⟩
  endsWhole := by
    cases steps with
    | nil => exact endsWhole_nil
    | cons s steps =>
      obtain ⟨hs, hcut⟩ := hloose s rfl
      exact (endsWhole_loose hs steps).mpr hcut
  uncut := id

/-- What the right side of an operator leaves is whole for a lower bound if all of it is. -/
theorem endsWhole_iff {lhs e : Grouping} {steps left : List Step}
    (h : ReadWhole ops bound lhs steps e left) {lower : Nat} (hlower : lower ≤ bound) :
    EndsWhole ops lower steps ↔ EndsWhole ops lower left := by
  obtain ⟨taken, rfl, htaken⟩ := h.taken
  exact endsWhole_append (fun s hs => Nat.le_trans hlower (htaken s hs)) left

/-- Of an operator that binds tightly enough only what its right side leaves counts. -/
theorem endsWhole_behind {s : Step} (hbound : bound ≤ s.operator.precedence) {rhs : Grouping}
    {steps left : List Step}
    (hrhs : ReadWhole ops (rightBound s.operator) (.letter s.letter) steps rhs left)
    (hle : s.operator.precedence ≤ 65534) :
    EndsWhole ops bound (s :: steps) ↔ EndsWhole ops bound left := by
  have hlower : bound ≤ rightBound s.operator :=
    Nat.le_trans hbound (precedence_le_rightBound hle)
  rw [endsWhole_cons hbound, hrhs.endsWhole_iff hlower]

/-- The right side of an operator, and what goes on behind it. -/
theorem step {s : Step} (hs : s.Of ops) (hle : s.operator.precedence ≤ 65534)
    (hbound : bound ≤ s.operator.precedence) {lhs rhs e : Grouping}
    {steps left last : List Step}
    (hrhs : ReadWhole ops (rightBound s.operator) (.letter s.letter) steps rhs left)
    (he : ReadWhole ops bound (.node s.operator lhs rhs) left e last) :
    ReadWhole ops bound lhs (s :: steps) e last where
  toClimbed := .step hs hbound hrhs.toClimbed he.toClimbed
  taken := by
    have hright := precedence_le_rightBound hle
    obtain ⟨taken, hsteps, htaken⟩ := hrhs.taken
    obtain ⟨taken', hleft, htaken'⟩ := he.taken
    refine ⟨s :: (taken ++ taken'), by rw [hsteps, hleft]; simp, ?_⟩
    intro x hx
    rcases List.mem_cons.mp hx with rfl | hx
    · exact hbound
    rcases List.mem_append.mp hx with hx | hx
    · have hx' := htaken x hx
      omega
    · exact htaken' x hx
  endsWhole := (hrhs.endsWhole_behind hbound hle).mpr he.endsWhole
  uncut := fun hlast => ⟨hrhs.endsWhole, hrhs.uncut (he.uncut hlast)⟩

end ReadWhole

namespace SignOperators

variable {engine : Engine Unit} {ops : List (Entry Unit)}

theorem operators_expr (h : SignOperators engine ops) (g : Grouping) :
    (g.expr engine).operators = headNames g.inorder := by
  induction g with
  | letter c => rw [Grouping.expr, Engine.letterValue_eq h.promotion]; rfl
  | node o lhs rhs ihl ihr =>
    rw [Grouping.expr, Tree.operators_pair, ihl, ihr, Grouping.inorder, headNames_append]
    rfl

/-- The operators of a reading and of what it has left are those of its start and of the chain. -/
theorem operators_append (h : SignOperators engine ops) {bound : Nat} {lhs e : Grouping}
    {steps left : List Step} (he : Climbed ops bound lhs steps e left) :
    (e.expr engine).operators ++ left.map (·.operator.headName) =
      (lhs.expr engine).operators ++ steps.map (·.operator.headName) := by
  have horder := congrArg headNames he.inorder
  rwa [headNames_append, headNames_append, headNames_stepOrder, headNames_stepOrder,
    ← h.operators_expr, ← h.operators_expr] at horder

theorem operators_letter (h : SignOperators engine ops) (c : Char) :
    ((Grouping.letter c).expr engine).operators = [] := h.operators_expr (.letter c)

/-- Those of an operator with its sides, and of what is left behind it. -/
theorem operators_node_append (h : SignOperators engine ops) {s : Step} {lhs rhs : Grouping}
    {steps left : List Step}
    (hrhs : Climbed ops (rightBound s.operator) (.letter s.letter) steps rhs left) :
    ((Grouping.node s.operator lhs rhs).expr engine).operators ++
        left.map (·.operator.headName) =
      (lhs.expr engine).operators ++ (s :: steps).map (·.operator.headName) := by
  have hnames := h.operators_append hrhs
  rw [h.operators_letter, List.nil_append] at hnames
  rw [Grouping.expr, Tree.operators_pair, List.append_assoc, List.cons_append, hnames]
  rfl

/-- Where a sign stands no expression is read, or an error. -/
theorem expression_sign (h : SignOperators engine ops) {stop : Terminator}
    (hstop : Proper engine stop) {c : Char} (hc : IsSign c) {rest ts : List Token}
    (hrest : Spells rest (.char c :: ts)) :
    ∃ result after, expression engine engine.host stop rest = pure (result, after) ∧
      (result.getD (Tree.errorCall .missing none none)).valid = false := by
  have haccepted := Engine.accepted_of_ofEntries h.accepted
  have hopens := h.opens_sign hc
  obtain ⟨tail, hskip, -⟩ := hrest.cons rfl
  rw [← expression_skipSpace haccepted, hskip]
  by_cases hoperator : atOperator engine.dictionary (.char c :: tail) = true
  · refine ⟨none, .char c :: tail, ?_, rfl⟩
    rw [expression_eq haccepted, primary]
    simp only [skipSpace_cons_of_not tail hopens.spacing, atTerminator_of_opens hstop hopens,
      h.candidates_start, firstAccepted, unclaimed, Token.isCommand, hc.digit, hc.letter,
      hoperator, Bool.false_eq_true, if_false, if_true, pure_bind]
    rfl
  · have hunclaimed : unclaimed engine engine.host (expression engine engine.host) (.char c)
        (.char c :: tail) = pure (some (Tree.errorCall .unexpectedToken none
          (some (Latex.ofTokens (between (.char c :: tail) tail))), tail)) := by
      simp only [unclaimed, Token.isCommand, hc.digit, hc.letter, hoperator, Bool.false_eq_true,
        if_false, errorAt_eq]
      rfl
    have hprimary := primary_unclaimed hstop hopens (h.candidates_start _) hunclaimed
    obtain ⟨e, after, hmore, he⟩ := h.more_invalid stop (Tree.valid_errorCall _ _ _) tail
    refine ⟨some e, after, ?_, he⟩
    rw [expression_of_primary haccepted hprimary, completed, hmore]
    rfl

/-- **Reading on behind a grouping climbs, or misreads.**  The induction is on the steps in front,
    as for any chain. -/
theorem more_signs (h : SignOperators engine ops) {steps : List Step}
    (hsteps : ∀ s ∈ steps, s.Of ops) {stop : Terminator} (hstop : Proper engine stop)
    {lhs : Grouping} (hlhs : lhs.Respects)
    (hroot : ∀ l ∈ lhs.root?, l ∈ ops ∧ ∀ s ∈ steps.head?, l.LeftOf s.operator)
    {rest : List Token} (hrest : Spells rest (stepTokens steps)) :
    (∃ e left after, ReadWhole ops stop.minPrec lhs steps e left ∧
      more engine stop (lhs.expr engine) rest = pure (e.expr engine, after) ∧
      Spells after (stepTokens left) ∧ skipSpace after = after) ∨
    ∃ e after, more engine stop (lhs.expr engine) rest = pure (e, after) ∧
      Misread ((lhs.expr engine).operators ++ steps.map (·.operator.headName)) e ∧
      ¬ (EndsWhole ops stop.minPrec steps ∧ Uncut ops steps) := by
  have haccepted := Engine.accepted_of_ofEntries h.accepted
  induction hlength : steps.length using Nat.strong_induction_on
    generalizing steps stop lhs rest with
  | _ n ih =>
  subst hlength
  cases steps with
  | nil =>
    left
    refine ⟨lhs, [], [], .stay hlhs (by rintro s ⟨⟩), ?_, rfl, rfl⟩
    rw [← more_skipSpace haccepted, hrest.nil]
    exact more_of_halts (halts_nil _)
  | cons s steps =>
    have hs : s.Of ops := hsteps s List.mem_cons_self
    obtain ⟨c, signs, htrigger, hc⟩ := h.exists_tokens_cons hs.operator hs.trigger
    have htokens : stepTokens (s :: steps) =
        s.trigger.tokens ++ .char s.letter :: stepTokens steps := by
      rw [stepTokens, List.flatMap_cons, List.append_assoc]
      rfl
    rw [htokens, htrigger, List.cons_append] at hrest
    obtain ⟨tail, hskip, -⟩ := hrest.cons rfl
    have hplace := hrest.after_blanks rfl
    rw [← List.cons_append, ← htrigger, hskip] at hplace
    rw [← more_skipSpace haccepted, hskip]
    have hopens := h.opens_sign hc
    have hsettled := skipSpace_cons_of_not tail hopens.spacing
    have hbare : (lhs.expr engine).isGrouping = false :=
      h.bare_expr fun l hl => (hroot l hl).1
    cases hmatches : (engine.dictionary.candidates (.char c :: tail)
      [.infixOp, .postfixOp]).filter (fun candidate => stop.minPrec ≤ candidate.entry.precedence)
      with
    | nil =>
      -- the operator is left to who reads with a lower bound
      left
      obtain ⟨hhalts, hloose, hcut⟩ := h.halts_of_none hplace hs hsettled hmatches
      refine ⟨lhs, s :: steps, .char c :: tail, .stay hlhs ?_, more_of_halts hhalts, ?_, hsettled⟩
      · rintro x ⟨rfl⟩
        exact ⟨hloose, hcut⟩
      · rwa [htokens]
    | cons found others =>
      obtain ⟨hmem, hbound, hcases⟩ := h.first_cases hplace hs hsettled hmatches
      have hproper := hstop.withMinPrec (rightBound found.entry)
      rcases hcases with ⟨hentry, hafter⟩ | ⟨hhead, hloose, hcut, c', ts, hc', hafter⟩
      · -- the right side of the operator
        obtain ⟨first, hfirst, hread⟩ :=
          h.expression_letter hproper hs.letter (h.free_letter hs.letter) hafter
        rw [hentry] at hbound hproper hread
        have hletter : (Grouping.letter s.letter).Respects := trivial
        rcases ih steps.length (Nat.lt_succ_self _)
          (fun x hx => hsteps x (List.mem_cons_of_mem s hx)) hproper hletter (by rintro l ⟨⟩)
          hfirst rfl with
          ⟨rhs, left, after, hrhs, hmore, hrestLeft, -⟩ | ⟨e, after, hmore, hmisread, hcut⟩
        · have hoperand : expression engine engine.host
              (stop.withMinPrec (rightBound found.entry)) found.after =
                pure (some (rhs.expr engine), after) := by
            rw [hentry, hread, completed, hmore]
            rfl
          rw [h.more_first hstop hopens hmatches hoperand, hentry, Option.getD_some,
            h.call_eq hs.operator hbare (h.bare_expr fun r hr => (hrhs.root_of_letter r hr).1)]
          -- the operator with both its sides, in front of what is left
          have hle := h.bounded s.operator hs.operator
          have hnode := hrhs.respects_node hle hlhs fun l hl => (hroot l hl).2 s rfl
          rcases ih left.length (Nat.lt_succ_of_le hrhs.suffix.length_le)
            (fun x hx => hsteps x (List.mem_cons_of_mem s (hrhs.suffix.subset hx))) hstop hnode
            (hrhs.root_node hle hs) hrestLeft rfl with
            ⟨e, last, place, he, hgo, hend⟩ | ⟨e, place, hgo, hmisread, hcut⟩
          · exact Or.inl ⟨e, last, place, .step hs hle hbound hrhs he, hgo, hend⟩
          · right
            refine ⟨e, place, hgo, ?_, ?_⟩
            · rwa [h.operators_node_append hrhs.toClimbed] at hmisread
            · rintro ⟨hwhole, huncut⟩
              have hleft := (hrhs.endsWhole_behind hbound hle).mp hwhole
              exact hcut ⟨hleft, huncut.2.suffix hrhs.suffix⟩
        · -- the right side is misread, and with it all that comes after
          have hoperand : expression engine engine.host
              (stop.withMinPrec (rightBound found.entry)) found.after = pure (some e, after) := by
            rw [hentry, hread, completed, hmore]
            rfl
          rw [h.operators_letter, List.nil_append] at hmisread
          obtain ⟨e', place, hgo, he'⟩ :=
            h.more_first_misread hstop hopens hmatches hmem hoperand hmisread hbare
          rw [hentry] at he'
          exact Or.inr ⟨e', place, hgo, he', fun hboth => hcut hboth.2⟩
      · -- a shorter trigger is taken, and no operand stands behind it
        obtain ⟨result, after, hread, hinvalid⟩ := h.expression_sign hproper hc' hafter
        obtain ⟨e, place, hgo, he⟩ := h.more_first_wrong hstop hopens hmatches hmem hhead hread
          hinvalid hbare (steps.map (·.operator.headName))
        refine Or.inr ⟨e, place, hgo, he, ?_⟩
        exact fun hboth => (endsWhole_loose hloose steps).mp hboth.1 hcut

/-- A whole chain is grouped by precedence, or cut and misread. -/
theorem parseTokens_cases (h : SignOperators engine ops) {first : Char}
    (hfirst : Text.isAlphabetic first = true) {steps : List Step} (hsteps : ∀ s ∈ steps, s.Of ops)
    {tokens : List Token} (htokens : Spells tokens (.char first :: stepTokens steps)) :
    (Uncut ops steps ∧ ∃ g : Grouping, engine.parseTokens tokens = g.expr engine ∧
      g.inorder = .inl first :: stepOrder steps ∧ g.Respects) ∨
    (¬ Uncut ops steps ∧
      Misread (steps.map (·.operator.headName)) (engine.parseTokens tokens)) := by
  have haccepted := Engine.accepted_of_ofEntries h.accepted
  obtain ⟨rest, hrest, hread⟩ :=
    h.expression_letter proper_default hfirst (h.free_letter hfirst) htokens
  have hletter : (Grouping.letter first).Respects := trivial
  rcases h.more_signs hsteps proper_default hletter (by rintro l ⟨⟩) hrest with
    ⟨g, left, after, hg, hmore, hafter, hsettled⟩ | ⟨e, after, hmore, hmisread, hcut⟩
  · left
    cases left with
    | cons s left => exact absurd (hg.loose s rfl) (Nat.not_lt_zero _)
    | nil =>
      have hend : after = [] := by rw [← hsettled, hafter.nil]
      have horder := hg.inorder
      rw [stepOrder, List.flatMap_nil, List.append_nil] at horder
      refine ⟨hg.uncut trivial, g, ?_, horder, hg.respects⟩
      apply parseTokens_of_expression haccepted
      rw [hread, completed, hmore, hend]
      rfl
  · right
    rw [h.operators_letter, List.nil_append] at hmisread
    refine ⟨fun huncut => hcut ⟨endsWhole_zero steps, huncut⟩, ?_⟩
    have hexpression : expression engine engine.host {} tokens = pure (some e, after) := by
      rw [hread, completed, hmore]
      rfl
    obtain ⟨more, hparse⟩ := exists_parseTokens_cons haccepted hexpression
    rw [hparse]
    cases more with
    | nil => exact hmisread
    | cons next more =>
      show Misread _ (Id.run (build engine engine.host "Sequence" (e :: next :: more)))
      rw [build_eq]
      exact hmisread.call engine "Sequence" (next :: more)

/-- **A chain is read with its operators if it is uncut, and only then.**  Blanks may stand
    anywhere in it, also inside a trigger.  An uncut chain is grouped by precedence. -/
theorem parseTokens_operators_iff (h : SignOperators engine ops) {first : Char}
    (hfirst : Text.isAlphabetic first = true) {steps : List Step} (hsteps : ∀ s ∈ steps, s.Of ops)
    {tokens : List Token} (htokens : Spells tokens (.char first :: stepTokens steps)) :
    ((engine.parseTokens tokens).operators = steps.map (·.operator.headName) ↔ Uncut ops steps) ∧
      (Uncut ops steps → ∃ g : Grouping, engine.parseTokens tokens = g.expr engine ∧
        g.inorder = .inl first :: stepOrder steps ∧ g.Respects) := by
  rcases h.parseTokens_cases hfirst hsteps htokens with ⟨huncut, g, hg⟩ | ⟨hcut, hmisread⟩
  · refine ⟨iff_of_true ?_ huncut, fun _ => ⟨g, hg⟩⟩
    obtain ⟨hparse, horder, -⟩ := hg
    rw [hparse, h.operators_expr, horder]
    exact headNames_stepOrder steps
  · exact ⟨iff_of_false hmisread.operators_ne hcut, fun huncut => absurd huncut hcut⟩

end SignOperators

/-! ### Two relations -/

def less : Entry Unit := .infixOp "Less" "<" 245

/-- This relation binds a little more loosely. -/
def lessEqual : Entry Unit := .infixOp "LessEqual" "<=" 241

/-- The engine for the two relations. -/
def Engine.comparisons : Engine Unit :=
  match Dictionary.ofEntries [less, lessEqual] with
  | .ok d => .ofDictionary d {}
  | .error _ => .ofDictionary .empty {}

theorem signOperators_comparisons : SignOperators Engine.comparisons [less, lessEqual] where
  accepted := by
    have hdefects : [less, lessEqual].all (fun entry => entry.defect?.isNone) = true := by
      decide +kernel
    obtain ⟨d, hd⟩ := Dictionary.exists_ofEntries_of_all hdefects
    show Dictionary.ofEntries [less, lessEqual] = _
    rw [Engine.comparisons, hd]
    rfl
  kind_eq := by simp [less, lessEqual, Entry.infixOp, Entry.named]
  parse_eq := by simp [less, lessEqual, Entry.infixOp, Entry.named]
  bounded := by decide
  names := by
    have hnone : ∀ name, name = "Less" ∨ name = "LessEqual" →
        Engine.comparisons.isAssociative name = false := by
      rintro name (rfl | rfl) <;> decide +kernel
    simp [less, lessEqual, Entry.infixOp, Entry.named, hnone]
  signs := by
    have hless : IsSign '<' := ⟨by decide, by decide +kernel, by decide⟩
    have hequal : IsSign '=' := ⟨by decide, by decide +kernel, by decide⟩
    have hshort : (Trigger.ofLatex "<").tokens = [.char '<'] := by decide +kernel
    have hlong : (Trigger.ofLatex "<=").tokens = [.char '<', .char '='] := by decide +kernel
    intro o ho t ht token htoken
    rcases List.mem_pair.mp ho with rfl | rfl
    · rw [List.mem_singleton.mp ht, hshort, List.mem_singleton] at htoken
      exact ⟨'<', htoken, hless⟩
    · rw [List.mem_singleton.mp ht, hlong] at htoken
      rcases List.mem_pair.mp htoken with rfl | rfl
      · exact ⟨'<', rfl, hless⟩
      · exact ⟨'=', rfl, hequal⟩
  triggers_nodup := by decide +kernel
  heads_nodup := by decide +kernel
  promotion := by decide +kernel

theorem step_lessEqual {c : Char} (hc : Text.isAlphabetic c = true) :
    (Step.mk lessEqual (.ofLatex "<=") c).Of [less, lessEqual] :=
  ⟨List.mem_cons_of_mem _ List.mem_cons_self, List.mem_singleton_self _, hc⟩

/-- Where the looser relation is the last one it is read, with a blank in it as well. -/
theorem parse_lessEqual_less :
    SignOperators Engine.comparisons [less, lessEqual] ∧
    (Engine.comparisons.parse "a< =b<c").operators = ["LessEqual", "Less"] := by
  refine ⟨signOperators_comparisons, ?_⟩
  let steps : List Step := [⟨lessEqual, .ofLatex "<=", 'b'⟩, ⟨less, .ofLatex "<", 'c'⟩]
  have hsteps : ∀ s ∈ steps, s.Of [less, lessEqual] := by
    intro s hs
    rcases List.mem_pair.mp hs with rfl | rfl
    · exact step_lessEqual (by decide)
    · exact ⟨List.mem_cons_self, List.mem_singleton_self _, by decide⟩
  have htokens : Spells (tokenize "a< =b<c") (.char 'a' :: stepTokens steps) := by
    unfold Spells
    decide +kernel
  have huncut : Uncut [less, lessEqual] steps := by
    refine ⟨?_, endsWhole_nil, trivial⟩
    rw [endsWhole_cons (by decide)]
    exact endsWhole_nil
  exact (signOperators_comparisons.parseTokens_operators_iff (by decide) hsteps htokens).1.mpr
    huncut

/-- The looser relation behind itself is cut: the first of its signs is read as the other one. -/
theorem parse_lessEqual_twice :
    SignOperators Engine.comparisons [less, lessEqual] ∧
    (∀ s ∈ [Step.mk lessEqual (.ofLatex "<=") 'b', ⟨lessEqual, .ofLatex "<=", 'c'⟩],
      s.Of [less, lessEqual]) ∧
    tokenize "a<=b<=c" = .char 'a' ::
      stepTokens [⟨lessEqual, .ofLatex "<=", 'b'⟩, ⟨lessEqual, .ofLatex "<=", 'c'⟩] ∧
    (Engine.comparisons.parse "a<=b<=c").operators ≠ ["LessEqual", "LessEqual"] := by
  let steps : List Step :=
    [⟨lessEqual, .ofLatex "<=", 'b'⟩, ⟨lessEqual, .ofLatex "<=", 'c'⟩]
  have hsteps : ∀ s ∈ steps, s.Of [less, lessEqual] := by
    intro s hs
    rcases List.mem_pair.mp hs with rfl | rfl
    · exact step_lessEqual (by decide)
    · exact step_lessEqual (by decide)
  have htokens : tokenize "a<=b<=c" = .char 'a' :: stepTokens steps := by decide +kernel
  have hspells : Spells (tokenize "a<=b<=c") (.char 'a' :: stepTokens steps) := by
    unfold Spells
    decide +kernel
  have hcut : ¬ Uncut [less, lessEqual] steps := by
    rintro ⟨hwhole, -⟩
    refine (endsWhole_loose (by decide) []).mp hwhole ?_
    exact ⟨less, List.mem_cons_self, .ofLatex "<", List.mem_singleton_self _, by decide +kernel,
      by decide⟩
  refine ⟨signOperators_comparisons, hsteps, htokens, ?_⟩
  rcases signOperators_comparisons.parseTokens_cases (by decide) hsteps hspells with
    ⟨huncut, -⟩ | ⟨-, hmisread⟩
  · exact absurd huncut hcut
  · exact hmisread.operators_ne

end Formula
