import Formula.Proofs.Grouping
import Formula.Proofs.OperatorTable
import Mathlib.Data.List.Flatten

/-!
  **Chains of operators are grouped by precedence.**

  A chain is a letter and then, any number of times, an operator and another letter.  Where the
  dictionary has only operators between operands every chain is read as a tree over exactly its
  letters and operators in their order, and two operators of which one is the child of the other
  stand as their precedences ask.  Operators of one precedence may group to different sides.

  An operator on the right of another was read with a bound, so it is tight enough.  That one on
  the left is tight enough has another reason: reading it has ended in front of the operator above
  it.  So `more_chain` says of a place in the chain that the operator there binds too loosely for
  what was read before it, and this is what the induction carries.
-/

namespace Formula

open Reader

/-- The dictionary of the engine consists of operators between operands that are read by the rule
    of their kind.  Their calls stay as they are where they are operands. -/
structure InfixOnly (engine : Engine Unit) (ops : List (Entry Unit)) : Prop where
  accepted : Dictionary.ofEntries ops = .ok engine.dictionary
  kind_eq : ∀ o ∈ ops, o.kind = .infixOp
  parse_eq : ∀ o ∈ ops, o.parse = .byKind
  bounded : ∀ o ∈ ops, o.precedence ≤ 65534
  names : ∀ o ∈ ops, ∀ name, o.name = some name →
    name ∉ ["Delimiter", "Sequence"] ∧ engine.isAssociative name = false

/-- The dictionary of the engine consists of operators between operands that are read by the rule
    of their kind.  Each trigger is a command of its own. -/
structure OperatorsOnly (engine : Engine Unit) (ops : List (Entry Unit)) : Prop where
  accepted : Dictionary.ofEntries ops = .ok engine.dictionary
  kind_eq : ∀ o ∈ ops, o.kind = .infixOp
  parse_eq : ∀ o ∈ ops, o.parse = .byKind
  bounded : ∀ o ∈ ops, o.precedence ≤ 65534
  commands : ∀ o ∈ ops, ∀ t ∈ o.triggers,
    ∃ latex, t.tokens = [.command latex] ∧ IsOperatorCommand latex
  triggers_nodup : (ops.flatMap fun o => o.triggers.map Trigger.tokens).Nodup
  names : ∀ o ∈ ops, ∀ name, o.name = some name →
    name ∉ ["Delimiter", "Sequence"] ∧ engine.isAssociative name = false

/-! ### Chains -/

/-- An operator, one of its triggers and the letter behind it. -/
structure Step where
  operator : Entry Unit
  trigger : Trigger
  letter : Char

/-- The step is written with an operator of the table. -/
structure Step.Of (ops : List (Entry Unit)) (s : Step) : Prop where
  operator : s.operator ∈ ops
  trigger : s.trigger ∈ s.operator.triggers
  letter : Text.isAlphabetic s.letter = true

def stepTokens (steps : List Step) : List Token :=
  steps.flatMap fun s => s.trigger.tokens ++ [.char s.letter]

/-- The operators and letters of a chain behind its first letter. -/
def stepOrder (steps : List Step) : List (Char ⊕ Entry Unit) :=
  steps.flatMap fun s => [.inr s.operator, .inl s.letter]

/-- Blanks apart the tokens are those. -/
def Spells (rest tokens : List Token) : Prop := rest.filter (! ·.isSpace) = tokens

/-! ### Blanks in a chain -/

theorem Spells.cons {rest : List Token} {t : Token} {ts : List Token} (h : Spells rest (t :: ts))
    (ht : isSpacing t = false) : ∃ tail, skipSpace rest = t :: tail ∧ Spells tail ts := by
  unfold Spells at h
  induction rest with
  | nil => cases h
  | cons x rest ih =>
    by_cases hx : x.isSpace = true
    · rw [List.filter_cons_of_neg (by simp [hx])] at h
      obtain ⟨tail, hskip, htail⟩ := ih h
      have hspacing : isSpacing x = true := by
        cases x <;> first | rfl | cases hx
      refine ⟨tail, ?_, htail⟩
      rw [← hskip, skipSpace, skipSpace, List.dropWhile_cons_of_pos hspacing]
    · rw [List.filter_cons_of_pos (by simp [hx])] at h
      obtain ⟨rfl, htail⟩ := List.cons.inj h
      exact ⟨rest, skipSpace_cons_of_not rest ht, htail⟩

theorem Spells.after_blanks {rest : List Token} {t : Token} {ts : List Token}
    (h : Spells rest (t :: ts)) (ht : isSpacing t = false) :
    Spells (skipSpace rest) (t :: ts) := by
  obtain ⟨tail, hskip, htail⟩ := h.cons ht
  have hspace : t.isSpace = false := by
    cases t <;> first | rfl | cases ht
  rw [hskip, Spells, List.filter_cons_of_pos (by simp [hspace]), htail]

theorem Spells.nil {rest : List Token} (h : Spells rest []) : skipSpace rest = [] := by
  unfold Spells at h
  rw [skipSpace, List.dropWhile_eq_nil_iff]
  intro t ht
  have hspace := List.filter_eq_nil_iff.mp h t ht
  cases t <;> first | rfl | simp [Token.isSpace] at hspace

/-- A letter is read, with what comes behind it. -/
theorem expression_spelled_letter {engine : Engine Unit} (h : engine.Accepted)
    {stop : Terminator} (hstop : Proper engine stop) {c : Char} (hc : Text.isAlphabetic c = true)
    (hfree : engine.Free (.char c)) {rest ts : List Token} (hrest : Spells rest (.char c :: ts)) :
    ∃ tail, Spells tail ts ∧ expression engine engine.host stop rest =
      completed engine stop (engine.letterValue c) tail := by
  obtain ⟨tail, hskip, htail⟩ := hrest.cons rfl
  refine ⟨tail, htail, ?_⟩
  rw [← expression_skipSpace h, hskip]
  exact expression_of_primary h (primary_alphabetic hstop hc hfree tail)

namespace InfixOnly

variable {engine : Engine Unit} {ops : List (Entry Unit)}

/-! ### What the table knows -/

theorem indexed (h : InfixOnly engine ops) : Dictionary.Indexed ops engine.dictionary :=
  Dictionary.indexed_of_ofEntries h.accepted

theorem isCloser_eq (h : InfixOnly engine ops) (t : Token) :
    engine.dictionary.isCloser t = false := by
  rw [h.indexed.closer_eq, List.any_eq_false]
  intro o ho
  simp [Entry.closesWith, h.kind_eq o ho]

theorem matchedTriggers_eq (h : InfixOnly engine ops) {o : Entry Unit} (ho : o ∈ ops) :
    o.matchedTriggers = o.triggers := by
  rw [Entry.matchedTriggers, if_neg]
  rw [h.kind_eq o ho]
  decide

/-- An operator that is accepted has a name, and that is its head. -/
theorem headName_eq (h : InfixOnly engine ops) {o : Entry Unit} (ho : o ∈ ops) :
    o.name = some o.headName := by
  cases hname : o.name with
  | some name => rw [(Entry.ruled_of_byKind (h.kind_eq o ho) (h.parse_eq o ho) hname).2]
  | none =>
    have hsound := h.indexed.sound o ho
    rw [Entry.defect?, Entry.head?, Entry.isCustom, h.parse_eq o ho, hname] at hsound
    split at hsound <;> cases hsound

theorem ruled (h : InfixOnly engine ops) {o : Entry Unit} (ho : o ∈ ops) :
    o.Ruled .infixOp :=
  (Entry.ruled_of_byKind (h.kind_eq o ho) (h.parse_eq o ho) (h.headName_eq ho)).1

/-- A token is free if no trigger starts with it. -/
theorem free_of_triggers (h : InfixOnly engine ops) {token : Token}
    (htriggers : ∀ o ∈ ops, ∀ t ∈ o.triggers, t.tokens.head? ≠ some token) :
    engine.Free token := by
  constructor
  · rw [h.indexed.readings_eq, List.flatMap_eq_nil_iff]
    intro o ho
    apply Entry.readingsAt_eq_nil
    rw [h.matchedTriggers_eq ho]
    exact htriggers o ho
  · exact h.isCloser_eq _

/-! ### Reading operands -/

theorem bare_expr (h : InfixOnly engine ops) {g : Grouping} (hg : ∀ o ∈ g.root?, o ∈ ops) :
    (g.expr engine).isGrouping = false := by
  cases g with
  | letter c =>
    unfold Grouping.expr Engine.letterValue
    split <;> rfl
  | node o lhs rhs =>
    have ho : o ∈ ops := hg o rfl
    have hnames := (h.names o ho _ (h.headName_eq ho)).1
    simp only [List.mem_cons, List.not_mem_nil, or_false, not_or] at hnames
    simp [Grouping.expr, Tree.isGrouping_call, hnames]

/-- The call of an operator has the operands that it is built with. -/
theorem call_eq (h : InfixOnly engine ops) {o : Entry Unit} (ho : o ∈ ops) {lhs rhs : Expr}
    (hlhs : lhs.isGrouping = false) (hrhs : rhs.isGrouping = false) :
    engine.call o.headName [lhs, rhs] = .call () o.headName [lhs, rhs] := by
  apply Engine.call_of_none
  · intro op hop
    rcases List.mem_pair.mp hop with rfl | rfl
    · exact hlhs
    · exact hrhs
  · intro hassociative
    rw [(h.names o ho _ (h.headName_eq ho)).2] at hassociative
    cases hassociative

theorem expression_letter (h : InfixOnly engine ops) {stop : Terminator}
    (hstop : Proper engine stop) {c : Char} (hc : Text.isAlphabetic c = true)
    (hfree : engine.Free (.char c)) {rest ts : List Token} (hrest : Spells rest (.char c :: ts)) :
    ∃ tail, Spells tail ts ∧ expression engine engine.host stop rest =
      completed engine stop ((Grouping.letter c).expr engine) tail :=
  expression_spelled_letter (Engine.accepted_of_ofEntries h.accepted) hstop hc hfree hrest

end InfixOnly

namespace OperatorsOnly

variable {engine : Engine Unit} {ops : List (Entry Unit)}

theorem infixOnly (h : OperatorsOnly engine ops) : InfixOnly engine ops :=
  ⟨h.accepted, h.kind_eq, h.parse_eq, h.bounded, h.names⟩

theorem free_char (h : OperatorsOnly engine ops) (c : Char) : engine.Free (.char c) := by
  apply h.infixOnly.free_of_triggers
  intro o ho t ht
  obtain ⟨latex, htokens, -⟩ := h.commands o ho t ht
  simp [htokens]

theorem readings_nodup (h : OperatorsOnly engine ops) (kinds : List Kind) (first : Token) :
    ((readingsOf ops kinds first).map (·.trigger.tokens)).Nodup := by
  have hsub : ((ops.flatMap (Entry.readingsAt first)).map (·.trigger.tokens)).Sublist
      (ops.flatMap fun o => o.triggers.map Trigger.tokens) := by
    rw [List.map_flatMap]
    apply List.Sublist.flatMap_right
    intro o ho
    rw [Entry.readingsAt, h.infixOnly.matchedTriggers_eq ho, List.map_map]
    exact List.filter_sublist.map _
  exact h.triggers_nodup.sublist ((List.filter_sublist.map _).trans hsub)

/-- Where the command of an operator stands the reader knows what it is. -/
theorem only (h : OperatorsOnly engine ops) {s : Step} (hs : s.Of ops) (rest : List Token) :
    Only engine [.infixOp, .postfixOp] s.operator s.trigger rest := by
  obtain ⟨latex, htokens, hcommand⟩ := h.commands _ hs.operator _ hs.trigger
  have hkind : s.operator.kind ∈ [Kind.infixOp, .postfixOp] := by
    rw [h.kind_eq _ hs.operator]
    decide
  have htrigger : s.trigger ∈ s.operator.matchedTriggers := by
    rw [h.infixOnly.matchedTriggers_eq hs.operator]
    exact hs.trigger
  have hopens : Opens engine (.command latex) :=
    ⟨hcommand.not_spacing, hcommand.not_boundary, h.infixOnly.isCloser_eq _⟩
  apply Only.of_entries h.infixOnly.indexed hs.operator htrigger htokens hopens rfl (by simp) hkind
  · apply List.count_eq_one_of_mem (h.readings_nodup _ _)
    have hreading : (⟨s.operator, s.trigger⟩ : Reading Unit) ∈
        ops.flatMap (Entry.readingsAt (.command latex)) := by
      refine List.mem_flatMap.mpr ⟨_, hs.operator, List.mem_map.mpr ⟨_, ?_, rfl⟩⟩
      exact List.mem_filter.mpr ⟨htrigger, by simp [htokens]⟩
    exact List.mem_map.mpr ⟨_, mem_readingsOf.mpr ⟨hreading, hkind⟩, rfl⟩
  · -- another reading at the command has it for all its tokens
    intro r hr hne
    obtain ⟨o, ho, hreading⟩ := List.mem_flatMap.mp (mem_readingsOf.mp hr).1
    obtain ⟨rfl, hmem, hhead⟩ := Entry.mem_readingsAt hreading
    rw [h.infixOnly.matchedTriggers_eq ho] at hmem
    obtain ⟨other, hother, -⟩ := h.commands _ ho _ hmem
    rw [hother] at hhead hne
    cases hhead
    exact absurd htokens.symm hne

/-! ### Reading a chain -/

theorem call_eq (h : OperatorsOnly engine ops) {o : Entry Unit} (ho : o ∈ ops)
    {lhs rhs : Grouping} (hlhs : ∀ l ∈ lhs.root?, l ∈ ops) (hrhs : ∀ r ∈ rhs.root?, r ∈ ops) :
    engine.call o.headName [lhs.expr engine, rhs.expr engine] =
      (Grouping.node o lhs rhs).expr engine :=
  h.infixOnly.call_eq ho (h.infixOnly.bare_expr hlhs) (h.infixOnly.bare_expr hrhs)

theorem expression_letter (h : OperatorsOnly engine ops) {stop : Terminator}
    (hstop : Proper engine stop) {c : Char} (hc : Text.isAlphabetic c = true)
    {rest ts : List Token} (hrest : Spells rest (.char c :: ts)) :
    ∃ tail, Spells tail ts ∧ expression engine engine.host stop rest =
      completed engine stop ((Grouping.letter c).expr engine) tail :=
  h.infixOnly.expression_letter hstop hc (h.free_char c) hrest

theorem spells_step (h : OperatorsOnly engine ops) {s : Step} (hs : s.Of ops) {steps : List Step}
    {rest : List Token} (hrest : Spells rest (stepTokens (s :: steps))) :
    ∃ tail, skipSpace rest = s.trigger.tokens ++ tail ∧
      Spells tail (.char s.letter :: stepTokens steps) ∧
      Spells (skipSpace rest) (stepTokens (s :: steps)) := by
  obtain ⟨latex, htokens, hcommand⟩ := h.commands _ hs.operator _ hs.trigger
  have hstep : stepTokens (s :: steps) =
      .command latex :: .char s.letter :: stepTokens steps := by
    rw [stepTokens, List.flatMap_cons, htokens]
    rfl
  rw [hstep] at hrest ⊢
  obtain ⟨tail, hskip, htail⟩ := hrest.cons hcommand.not_spacing
  rw [htokens]
  exact ⟨tail, hskip, htail, hrest.after_blanks hcommand.not_spacing⟩

/-- An operator that binds tightly enough takes what is on its left and what is read behind it. -/
theorem more_operator (h : OperatorsOnly engine ops) {s : Step} (hs : s.Of ops)
    {stop : Terminator} (hstop : Proper engine stop)
    (hbound : stop.minPrec ≤ s.operator.precedence) {lhs rhs : Grouping}
    (hlhs : ∀ l ∈ lhs.root?, l ∈ ops) (hrhs : ∀ r ∈ rhs.root?, r ∈ ops)
    {rest tail after : List Token} (hskip : skipSpace rest = s.trigger.tokens ++ tail)
    (hread : expression engine engine.host (stop.withMinPrec (rightBound s.operator)) tail =
      pure (some (rhs.expr engine), after)) :
    more engine stop (lhs.expr engine) rest =
      more engine stop ((Grouping.node s.operator lhs rhs).expr engine) after := by
  have haccepted := Engine.accepted_of_ofEntries h.accepted
  have honly := h.only hs tail
  obtain ⟨t, ts, htokens, hopens, -, -⟩ := honly.opens
  obtain ⟨consumed, hfound⟩ := honly.found
  have hrule := h.infixOnly.ruled hs.operator
  rw [← more_skipSpace haccepted, hskip, ← h.call_eq hs.operator hlhs hrhs]
  simp only [htokens, List.cons_append] at hfound ⊢
  exact more_between haccepted hstop hopens hfound hrule.kind_eq hrule.rule hrule.head_eq hbound
    hread

end OperatorsOnly

/-- What reading on behind `lhs` has come to in front of the steps that are left: a grouping of all
    between, up to an operator that binds more loosely than the bound. -/
structure Climbed (ops : List (Entry Unit)) (bound : Nat) (lhs : Grouping) (steps : List Step)
    (e : Grouping) (left : List Step) : Prop where
  inorder : e.inorder ++ stepOrder left = lhs.inorder ++ stepOrder steps
  respects : e.Respects
  root : ∀ r ∈ e.root?, r ∈ lhs.root? ∨ r ∈ ops ∧ bound ≤ r.precedence
  loose : ∀ s ∈ left.head?, s.operator.precedence < bound
  suffix : left <:+ steps

namespace Climbed

variable {ops : List (Entry Unit)} {bound : Nat}

theorem stay {lhs : Grouping} (hlhs : lhs.Respects) {steps : List Step}
    (hloose : ∀ s ∈ steps.head?, s.operator.precedence < bound) :
    Climbed ops bound lhs steps lhs steps :=
  ⟨rfl, hlhs, fun _ hr => Or.inl hr, hloose, List.suffix_refl _⟩

/-- The right side of an operator, and what goes on behind it. -/
theorem step {s : Step} (hs : s.Of ops) (hbound : bound ≤ s.operator.precedence)
    {lhs rhs e : Grouping} {steps left last : List Step}
    (hrhs : Climbed ops (rightBound s.operator) (.letter s.letter) steps rhs left)
    (he : Climbed ops bound (.node s.operator lhs rhs) left e last) :
    Climbed ops bound lhs (s :: steps) e last where
  inorder := by
    have hright := hrhs.inorder
    rw [he.inorder, Grouping.inorder, List.append_assoc, List.cons_append, hright, stepOrder,
      stepOrder, List.flatMap_cons]
    rfl
  respects := he.respects
  root := by
    intro r hr
    rcases he.root r hr with hroot | hroot
    · cases hroot
      exact Or.inr ⟨hs.operator, hbound⟩
    · exact Or.inr hroot
  loose := he.loose
  suffix := he.suffix.trans (hrhs.suffix.trans (List.suffix_cons s steps))

/-- What is read behind a letter has an operator for its root that the bound has let pass. -/
theorem root_of_letter {c : Char} {steps left : List Step} {e : Grouping}
    (h : Climbed ops bound (.letter c) steps e left) :
    ∀ r ∈ e.root?, r ∈ ops ∧ bound ≤ r.precedence := by
  intro r hr
  rcases h.root r hr with hletter | hr
  · cases hletter
  · exact hr

section

variable {s : Step} {lhs rhs : Grouping} {c : Char} {steps left : List Step}
  (hrhs : Climbed ops (rightBound s.operator) (.letter c) steps rhs left)
  (hle : s.operator.precedence ≤ 65534)

include hrhs hle

/-- An operator with its left side and what was read on its right. -/
theorem respects_node (hlhs : lhs.Respects) (hleft : ∀ l ∈ lhs.root?, l.LeftOf s.operator) :
    (Grouping.node s.operator lhs rhs).Respects := by
  rw [rightBound_eq hle] at hrhs
  exact ⟨hlhs, hrhs.respects, hleft, fun r hr => rightOf_iff.mpr (hrhs.root_of_letter r hr).2⟩

/-- It may stand on the left of what comes next. -/
theorem root_node (hs : s.Of ops) : ∀ l ∈ (Grouping.node s.operator lhs rhs).root?,
    l ∈ ops ∧ ∀ x ∈ left.head?, l.LeftOf x.operator := by
  rw [rightBound_eq hle] at hrhs
  rintro l ⟨rfl⟩
  exact ⟨hs.operator, fun x hx => leftOf_iff.mpr (hrhs.loose x hx)⟩

end

end Climbed

namespace OperatorsOnly

variable {engine : Engine Unit} {ops : List (Entry Unit)}

/-- **Reading on behind a grouping climbs.**  The induction is on the steps in front: the right
    side of the first operator takes some of them, and what follows goes on with fewer. -/
theorem more_chain (h : OperatorsOnly engine ops) {steps : List Step}
    (hsteps : ∀ s ∈ steps, s.Of ops) {stop : Terminator} (hstop : Proper engine stop)
    {lhs : Grouping} (hlhs : lhs.Respects)
    (hroot : ∀ l ∈ lhs.root?, l ∈ ops ∧ ∀ s ∈ steps.head?, l.LeftOf s.operator)
    {rest : List Token} (hrest : Spells rest (stepTokens steps)) :
    ∃ e left after, Climbed ops stop.minPrec lhs steps e left ∧
      more engine stop (lhs.expr engine) rest = pure (e.expr engine, after) ∧
      Spells after (stepTokens left) ∧ skipSpace after = after := by
  have haccepted := Engine.accepted_of_ofEntries h.accepted
  induction hlength : steps.length using Nat.strong_induction_on
    generalizing steps stop lhs rest with
  | _ n ih =>
  subst hlength
  cases steps with
  | nil =>
    refine ⟨lhs, [], [], .stay hlhs (by rintro s ⟨⟩), ?_, rfl, rfl⟩
    rw [← more_skipSpace haccepted, hrest.nil]
    exact more_of_halts (halts_nil _)
  | cons s steps =>
    have hs : s.Of ops := hsteps s List.mem_cons_self
    obtain ⟨tail, hskip, htail, hplace⟩ := h.spells_step hs hrest
    by_cases hbound : stop.minPrec ≤ s.operator.precedence
    · -- the right side of the operator
      have hproper := hstop.withMinPrec (rightBound s.operator)
      obtain ⟨first, hfirst, hread⟩ := h.expression_letter hproper hs.letter htail
      have hletter : (Grouping.letter s.letter).Respects := trivial
      obtain ⟨rhs, left, after, hrhs, hmore, hafter, -⟩ :=
        ih steps.length (Nat.lt_succ_self _) (fun x hx => hsteps x (List.mem_cons_of_mem s hx))
          hproper hletter (by rintro l ⟨⟩) hfirst rfl
      have hoperand : expression engine engine.host (stop.withMinPrec (rightBound s.operator))
          tail = pure (some (rhs.expr engine), after) := by
        rw [hread, completed, hmore]
        rfl
      -- the operator with both its sides, in front of what is left
      have hle := h.bounded s.operator hs.operator
      have hnode := hrhs.respects_node hle hlhs fun l hl => (hroot l hl).2 s rfl
      obtain ⟨e, last, place, he, hgo, hend⟩ :=
        ih left.length (Nat.lt_succ_of_le hrhs.suffix.length_le)
          (fun x hx => hsteps x (List.mem_cons_of_mem s (hrhs.suffix.subset hx))) hstop hnode
          (hrhs.root_node hle hs) hafter rfl
      refine ⟨e, last, place, .step hs hbound hrhs he, ?_, hend⟩
      rw [h.more_operator hs hstop hbound (fun l hl => (hroot l hl).1)
        (fun r hr => (hrhs.root_of_letter r hr).1) hskip hoperand, hgo]
    · -- the operator is left to who reads with a lower bound
      have hloose : s.operator.precedence < stop.minPrec := Nat.lt_of_not_le hbound
      have hhalts := (h.only hs tail).halts hloose
      rw [← hskip] at hhalts
      refine ⟨lhs, s :: steps, skipSpace rest, .stay hlhs ?_, ?_, hplace, hhalts.1⟩
      · rintro x ⟨rfl⟩
        exact hloose
      · rw [← more_skipSpace haccepted]
        exact more_of_halts hhalts

/-- **A chain of operators is grouped by precedence.**  Blanks may stand anywhere in it, and the
    operators may have any precedences and group to any sides. -/
theorem parseTokens_chain (h : OperatorsOnly engine ops) {first : Char}
    (hfirst : Text.isAlphabetic first = true) {steps : List Step} (hsteps : ∀ s ∈ steps, s.Of ops)
    {tokens : List Token} (htokens : Spells tokens (.char first :: stepTokens steps)) :
    ∃ g : Grouping, engine.parseTokens tokens = g.expr engine ∧
      g.inorder = .inl first :: stepOrder steps ∧ g.Respects := by
  have haccepted := Engine.accepted_of_ofEntries h.accepted
  obtain ⟨rest, hrest, hread⟩ := h.expression_letter proper_default hfirst htokens
  have hletter : (Grouping.letter first).Respects := trivial
  obtain ⟨e, left, after, he, hmore, hafter, hsettled⟩ :=
    h.more_chain hsteps proper_default hletter (by rintro l ⟨⟩) hrest
  cases left with
  | cons s left => exact absurd (he.loose s rfl) (Nat.not_lt_zero _)
  | nil =>
    have hend : after = [] := by rw [← hsettled, hafter.nil]
    refine ⟨e, ?_, ?_, he.respects⟩
    · apply parseTokens_of_expression haccepted
      rw [hread, completed, hmore, hend]
      rfl
    · have horder := he.inorder
      rwa [stepOrder, List.flatMap_nil, List.append_nil] at horder

end OperatorsOnly

/-! ### Operators of one precedence that group to different sides -/

/-- Meets, which bind as tightly as arrows and group to the left. -/
def meeting : Entry Unit := Entry.infixOp "Meet" "\\wedge" 100

/-- The engine for arrows and meets. -/
def Engine.meets : Engine Unit :=
  match Dictionary.ofEntries [arrow, meeting] with
  | .ok d => .ofDictionary d {}
  | .error _ => .ofDictionary .empty {}

theorem operatorsOnly_meets : OperatorsOnly Engine.meets [arrow, meeting] where
  accepted := by
    have hdefects : [arrow, meeting].all (fun entry => entry.defect?.isNone) = true := by
      decide +kernel
    obtain ⟨d, hd⟩ := Dictionary.exists_ofEntries_of_all hdefects
    show Dictionary.ofEntries [arrow, meeting] = _
    rw [Engine.meets, hd]
    rfl
  kind_eq := by simp [arrow, meeting, Entry.rightAssociative, Entry.infixOp, Entry.named]
  parse_eq := by simp [arrow, meeting, Entry.rightAssociative, Entry.infixOp, Entry.named]
  bounded := by decide
  commands := by
    have harrow : IsOperatorCommand "\\to" :=
      ⟨⟨"to".toList, by decide, by decide, List.all_eq_true.mp (by decide)⟩, by decide⟩
    have hmeet : IsOperatorCommand "\\wedge" :=
      ⟨⟨"wedge".toList, by decide, by decide, List.all_eq_true.mp (by decide)⟩, by decide⟩
    intro o ho t ht
    simp only [List.mem_cons, List.not_mem_nil, or_false] at ho
    rcases ho with rfl | rfl
    · rw [List.mem_singleton.mp ht]
      exact ⟨"\\to", harrow.tokens, harrow⟩
    · rw [List.mem_singleton.mp ht]
      exact ⟨"\\wedge", hmeet.tokens, hmeet⟩
  triggers_nodup := by decide +kernel
  names := by
    have hnone : ∀ name, name = "Arrow" ∨ name = "Meet" →
        Engine.meets.isAssociative name = false := by
      rintro name (rfl | rfl) <;> decide +kernel
    simp [arrow, meeting, Entry.rightAssociative, Entry.infixOp, Entry.named, hnone]

/-- An arrow takes on its right the operators of its own precedence, and a meet takes none. -/
theorem parse_meets :
    OperatorsOnly Engine.meets [arrow, meeting] ∧
    Engine.meets.parse "a\\to b\\wedge c\\to d" =
      .call () "Arrow" [.symbol "a",
        .call () "Arrow" [.call () "Meet" [.symbol "b", .symbol "c"], .symbol "d"]] := by
  refine ⟨operatorsOnly_meets, ?_⟩
  let steps : List Step :=
    [⟨arrow, .ofLatex "\\to", 'b'⟩, ⟨meeting, .ofLatex "\\wedge", 'c'⟩,
      ⟨arrow, .ofLatex "\\to", 'd'⟩]
  have hsteps : ∀ s ∈ steps, s.Of [arrow, meeting] := by
    intro s hs
    simp only [steps, List.mem_cons, List.not_mem_nil, or_false] at hs
    rcases hs with rfl | rfl | rfl
    · exact ⟨List.mem_cons_self, List.mem_singleton_self _, by decide⟩
    · exact ⟨List.mem_cons_of_mem _ List.mem_cons_self, List.mem_singleton_self _, by decide⟩
    · exact ⟨List.mem_cons_self, List.mem_singleton_self _, by decide⟩
  have htokens : Spells (tokenize "a\\to b\\wedge c\\to d") (.char 'a' :: stepTokens steps) := by
    unfold Spells
    decide +kernel
  obtain ⟨g, hparse, horder, hrespects⟩ :=
    operatorsOnly_meets.parseTokens_chain (by decide) hsteps htokens
  let expected : Grouping :=
    .node arrow (.letter 'a')
      (.node arrow (.node meeting (.letter 'b') (.letter 'c')) (.letter 'd'))
  have hmeet : meeting.RightOf arrow ∧ arrow.RightOf arrow ∧ meeting.LeftOf arrow :=
    ⟨Or.inr ⟨rfl, rfl⟩, Or.inr ⟨rfl, rfl⟩, Or.inr ⟨rfl, by decide⟩⟩
  have hexpected : expected.Respects := by
    simp [expected, Grouping.Respects, Grouping.root?, hmeet]
  have hg : g = expected := hrespects.unique hexpected horder
  have hletter : ∀ c, Engine.meets.letterValue c = .symbol (String.singleton c) := by
    have hpromotion : Engine.meets.options.promotion = .singleLetter := by decide +kernel
    intro c
    rw [Engine.letterValue, hpromotion]
  rw [Engine.parse, hparse, hg]
  simp only [expected, Grouping.expr, hletter]
  rfl

end Formula
