import Formula.Proofs.Latex.Leaves
import Mathlib.Data.List.Nodup

/-!
  **Every table of operators is read back.**

  A table of operators has groups in parentheses and otherwise only operators between operands.
  Their triggers are commands of letters, no two alike, and operators of equal precedence group to
  the same side.  The reader then inverts the writer on all expressions that are made of letters
  and of binary calls of the operators.
-/

namespace Formula

open Latex Reader

/-- The text is one command of letters, and none that the reader has a meaning for. -/
def IsOperatorCommand (latex : String) : Prop :=
  (∃ letters, latex.toList = '\\' :: letters ∧ letters ≠ [] ∧ ∀ c ∈ letters, c.isAlpha = true) ∧
    latex ∉ ["\\left", "\\right", "\\begin", "\\end", "\\quad", "\\qquad"]

/-- The dictionary of the engine consists of groups and of the operators, which stand before and
    after the groups in it. -/
structure OperatorTable (engine : Engine Unit) (before after : List (Entry Unit)) : Prop where
  accepted : Dictionary.ofEntries (before ++ parentheses :: after) = .ok engine.dictionary
  kind_eq : ∀ o ∈ before ++ after, o.kind = .infixOp
  parse_eq : ∀ o ∈ before ++ after, o.parse = .byKind
  write_eq : ∀ o ∈ before ++ after, o.write = .byKind
  triggered : ∀ o ∈ before ++ after, o.triggers ≠ []
  commands : ∀ o ∈ before ++ after, ∀ t ∈ o.triggers, IsOperatorCommand t.latex
  names_nodup : ((before ++ after).map Entry.name).Nodup
  triggers_nodup : ((before ++ after).flatMap fun o => o.triggers.map Trigger.latex).Nodup
  bounded : ∀ o ∈ before ++ after, o.precedence ≤ 65534
  sides : ∀ o ∈ before ++ after, ∀ o' ∈ before ++ after, o.precedence = o'.precedence →
    (o.associativity = .right ↔ o'.associativity = .right)
  names : ∀ o ∈ before ++ after, ∀ name, o.name = some name →
    name ∉ ["Delimiter", "Sequence", "Error"] ∧ engine.isAssociative name = false

/-- The expressions over letters and binary calls of the operators. -/
inductive OperatorTree (ops : List (Entry Unit)) : Expr → Prop where
  | letter {c : Char} (alpha : c.isAlpha = true) : OperatorTree ops (.symbol (String.singleton c))
  | call {o : Entry Unit} {name : String} {a b : Expr} (mem : o ∈ ops)
      (name_eq : o.name = some name) (lhs : OperatorTree ops a) (rhs : OperatorTree ops b) :
      OperatorTree ops (.call () name [a, b])

/-! ### Commands as triggers -/

theorem IsOperatorCommand.tokens {trigger : Trigger} (h : IsOperatorCommand trigger.latex) :
    trigger.tokens = [.command trigger.latex] := by
  obtain ⟨⟨letters, htext, hne, hletters⟩, -⟩ := h
  refine Trigger.tokens_of_tokenize ?_ (by simp [Token.isSpace])
  have hscan := @scan_command letters [] hne hletters rfl
  rw [List.append_nil, scan_nil] at hscan
  rw [tokenize, htext, hscan, ← htext, String.ofList_toList]

theorem IsOperatorCommand.word {trigger : Trigger} (h : IsOperatorCommand trigger.latex) :
    Word trigger.latex.toList trigger.tokens := by
  rw [h.tokens]
  obtain ⟨⟨letters, htext, hne, hletters⟩, -⟩ := h
  have hword := word_command hne hletters
  rwa [← htext, String.ofList_toList] at hword

/-- A command of letters is none of the commands with another character. -/
theorem IsOperatorCommand.ne {latex : String} (h : IsOperatorCommand latex) (other : String)
    (hother : (other.toList.drop 1).any (! Char.isAlpha ·) = true) : latex ≠ other := by
  rintro rfl
  obtain ⟨⟨letters, htext, -, hletters⟩, -⟩ := h
  rw [htext, List.any_eq_true] at hother
  obtain ⟨c, hc, hletter⟩ := hother
  rw [hletters c hc] at hletter
  cases hletter

theorem IsOperatorCommand.not_spacing {latex : String} (h : IsOperatorCommand latex) :
    isSpacing (.command latex) = false := by
  have hnamed := h.2
  simp only [List.mem_cons, List.not_mem_nil, or_false, not_or] at hnamed
  simp [isSpacing, spacingCommands, h.ne "\\," (by decide),
    h.ne "\\;" (by decide), h.ne "\\:" (by decide),
    h.ne "\\!" (by decide), h.ne "\\ " (by decide), hnamed]

theorem IsOperatorCommand.not_boundary {latex : String} (h : IsOperatorCommand latex) :
    isBoundary (.command latex) = false := by
  have hnamed := h.2
  simp only [List.mem_cons, List.not_mem_nil, or_false, not_or] at hnamed
  simp [isBoundary, h.ne "\\\\" (by decide), hnamed]

/-! ### What a table knows -/

/-- Among elements with different keys only one has a given key. -/
theorem filter_key_eq_singleton {α : Type} {l : List α} {key : α → String}
    (h : (l.map key).Nodup) {x : α} (hx : x ∈ l) : l.filter (fun y => key y == key x) = [x] := by
  induction l with
  | nil => cases hx
  | cons y l ih =>
    rw [List.map_cons, List.nodup_cons] at h
    rcases List.mem_cons.mp hx with rfl | hmem
    · have hnone : l.filter (fun y => key y == key x) = [] := by
        rw [List.filter_eq_nil_iff]
        intro z hz
        have hne : key z ≠ key x := fun heq => h.1 (heq ▸ List.mem_map_of_mem hz)
        simpa using hne
      rw [List.filter_cons_of_pos (by simp), hnone]
    · have hne : key y ≠ key x := fun heq => h.1 (heq ▸ List.mem_map_of_mem hmem)
      rw [List.filter_cons_of_neg (by simpa using hne)]
      exact ih h.2 hmem

namespace OperatorTable

variable {engine : Engine Unit} {before after : List (Entry Unit)}

theorem indexed (h : OperatorTable engine before after) :
    Dictionary.Indexed (before ++ parentheses :: after) engine.dictionary :=
  Dictionary.indexed_of_ofEntries h.accepted

/-- An entry of the dictionary is an operator or the groups. -/
theorem mem_entries {o : Entry Unit} (ho : o ∈ before ++ parentheses :: after) :
    o ∈ before ++ after ∨ o = parentheses := by
  rcases List.mem_append.mp ho with ho | ho
  · exact Or.inl (List.mem_append_left after ho)
  · rcases List.mem_cons.mp ho with rfl | ho
    · exact Or.inr rfl
    · exact Or.inl (List.mem_append_right before ho)

theorem mem_of_operator {o : Entry Unit} (ho : o ∈ before ++ after) :
    o ∈ before ++ parentheses :: after := by
  rcases List.mem_append.mp ho with ho | ho
  · exact List.mem_append_left _ ho
  · exact List.mem_append_right _ (List.mem_cons_of_mem _ ho)

/-- The only closing trigger starts with `\right`. -/
theorem isCloser_iff (h : OperatorTable engine before after) (t : Token) :
    engine.dictionary.isCloser t = true ↔ t = .command "\\right" := by
  rw [h.indexed.closer_eq, List.any_eq_true]
  constructor
  · rintro ⟨o, ho, hcloses⟩
    rcases mem_entries ho with ho | rfl
    · simp [Entry.closesWith, h.kind_eq o ho] at hcloses
    · simp only [Entry.closesWith, parentheses, Entry.matchfix, parentheses_close, Option.any_some,
        List.head?_cons, Bool.and_eq_true, beq_iff_eq] at hcloses
      exact (Option.some.inj hcloses.2).symm
  · rintro rfl
    refine ⟨parentheses, by simp, ?_⟩
    simp [Entry.closesWith, parentheses, Entry.matchfix, parentheses_close, Entry.named]

/-- The ways to read an operator at a token are its triggers with that command. -/
theorem readingsAt_operator (h : OperatorTable engine before after) {o : Entry Unit}
    (ho : o ∈ before ++ after) (first : Token) :
    o.readingsAt first =
      (o.triggers.filter fun t => Token.command t.latex == first).map (Reading.mk o) := by
  rw [Entry.readingsAt, Entry.matchedTriggers, if_neg (by rw [h.kind_eq o ho]; decide)]
  congr 1
  apply List.filter_congr
  intro t ht
  rw [(h.commands o ho t ht).tokens]
  rfl

theorem readingsAt_parentheses (first : Token) :
    parentheses.readingsAt first =
      if first = .command "\\left" then [⟨parentheses, .ofLatex "\\left("⟩] else [] := by
  have htriggers : parentheses.matchedTriggers = [.ofLatex "\\left("] := rfl
  rw [Entry.readingsAt, htriggers]
  by_cases hfirst : first = .command "\\left"
  · simp [hfirst, parentheses_open]
  · have hne : Token.command "\\left" ≠ first := fun heq => hfirst heq.symm
    simp [hfirst, hne, parentheses_open]

/-- What starts with a token is the groups, at `\left`, and at its command an operator. -/
theorem readings_eq (h : OperatorTable engine before after) (first : Token) :
    engine.dictionary.readings first =
      before.flatMap (Entry.readingsAt first) ++ parentheses.readingsAt first ++
        after.flatMap (Entry.readingsAt first) := by
  rw [h.indexed.readings_eq, List.flatMap_append, List.flatMap_cons, List.append_assoc]

theorem readingsAt_eq_nil (h : OperatorTable engine before after) {first : Token}
    (hfirst : ∀ o ∈ before ++ after, ∀ t ∈ o.triggers, Token.command t.latex ≠ first)
    {ops : List (Entry Unit)} (hops : ∀ o ∈ ops, o ∈ before ++ after) :
    ops.flatMap (Entry.readingsAt first) = [] := by
  rw [List.flatMap_eq_nil_iff]
  intro o ho
  rw [h.readingsAt_operator (hops o ho), List.map_eq_nil_iff, List.filter_eq_nil_iff]
  intro t ht
  simpa using hfirst o (hops o ho) t ht

/-- The command of an operator is read as that operator only. -/
theorem readings_operator (h : OperatorTable engine before after) {o : Entry Unit}
    (ho : o ∈ before ++ after) {t : Trigger} (ht : t ∈ o.triggers) :
    engine.dictionary.readings (.command t.latex) = [⟨o, t⟩] := by
  have hleft : t.latex ≠ "\\left" := by
    have hnamed := (h.commands o ho t ht).2
    simp only [List.mem_cons, not_or] at hnamed
    exact hnamed.1
  have hgroups : parentheses.readingsAt (.command t.latex) = [] := by
    rw [readingsAt_parentheses, if_neg (by simpa using hleft)]
  -- all readings of operators, of which the triggers are the keys
  let all : List (Reading Unit) := (before ++ after).flatMap fun o => o.triggers.map (Reading.mk o)
  have hall : (before ++ after).flatMap (Entry.readingsAt (.command t.latex)) =
      all.filter fun r => r.trigger.latex == t.latex := by
    rw [List.filter_flatMap]
    apply List.flatMap_congr
    intro o' ho'
    rw [h.readingsAt_operator ho', List.filter_map]
    congr 1
    apply List.filter_congr
    intro t' _
    simp
  have hkeys : (all.map fun r => r.trigger.latex).Nodup := by
    have hnodup := h.triggers_nodup
    simp only [all, List.map_flatMap, List.map_map]
    exact hnodup
  have hmem : (⟨o, t⟩ : Reading Unit) ∈ all :=
    List.mem_flatMap.mpr ⟨o, ho, List.mem_map.mpr ⟨t, ht, rfl⟩⟩
  rw [h.readings_eq, hgroups, List.append_nil, ← List.flatMap_append, hall]
  exact filter_key_eq_singleton hkeys hmem

theorem readings_left (h : OperatorTable engine before after) :
    engine.dictionary.readings (.command "\\left") =
      [⟨parentheses, .ofLatex "\\left("⟩] := by
  have hother : ∀ o ∈ before ++ after, ∀ t ∈ o.triggers,
      Token.command t.latex ≠ .command "\\left" := by
    intro o ho t ht heq
    have hnamed := (h.commands o ho t ht).2
    simp only [List.mem_cons, not_or] at hnamed
    exact hnamed.1 (Token.command.inj heq)
  rw [h.readings_eq, h.readingsAt_eq_nil hother fun o ho => List.mem_append_left after ho,
    h.readingsAt_eq_nil hother fun o ho => List.mem_append_right before ho, readingsAt_parentheses,
    if_pos rfl]
  rfl

/-- No notation starts with a character. -/
theorem free_char (h : OperatorTable engine before after) (c : Char) :
    engine.Free (.char c) := by
  constructor
  · have hother : ∀ o ∈ before ++ after, ∀ t ∈ o.triggers, Token.command t.latex ≠ .char c := by
      rintro o ho t ht ⟨⟩
    rw [h.readings_eq, h.readingsAt_eq_nil hother fun o ho => List.mem_append_left after ho,
      h.readingsAt_eq_nil hother fun o ho => List.mem_append_right before ho,
      readingsAt_parentheses, if_neg (by simp)]
    rfl
  · rw [← Bool.not_eq_true, h.isCloser_iff]
    simp

/-! ### Its notations -/

theorem headName_eq (h : OperatorTable engine before after) {o : Entry Unit}
    (ho : o ∈ before ++ after) {name : String} (hname : o.name = some name) :
    o.headName = name := (Entry.ruled_of_byKind (h.kind_eq o ho) (h.parse_eq o ho) hname).2

theorem ruled (h : OperatorTable engine before after) {o : Entry Unit} (ho : o ∈ before ++ after)
    {name : String} (hname : o.name = some name) : o.Ruled .infixOp :=
  (Entry.ruled_of_byKind (h.kind_eq o ho) (h.parse_eq o ho) hname).1

/-- The name of an operator belongs to it alone. -/
theorem byName_eq (h : OperatorTable engine before after) {o : Entry Unit}
    (ho : o ∈ before ++ after) {name : String} (hname : o.name = some name) :
    engine.dictionary.byName? name = some o := by
  rw [h.indexed.name_eq]
  cases hfind : (before ++ parentheses :: after).find? (·.name == some name) with
  | none =>
    have := List.find?_eq_none.mp hfind o (mem_of_operator ho)
    simp [hname] at this
  | some found =>
    have hfound : found.name = some name := by simpa using List.find?_some hfind
    rcases mem_entries (List.mem_of_find?_eq_some hfind) with hmem | rfl
    · have hsame := List.inj_on_of_nodup_map h.names_nodup hmem ho (hfound.trans hname.symm)
      rw [hsame]
    · have hnot := (h.names o ho name hname).1
      have hgroup : name = "Delimiter" := (Option.some.inj hfound).symm
      simp [hgroup] at hnot

/-- A command of an operator opens neither an expression's end nor a blank. -/
theorem opens_command (h : OperatorTable engine before after) {o : Entry Unit}
    (ho : o ∈ before ++ after) {t : Trigger} (ht : t ∈ o.triggers) :
    Opens engine (.command t.latex) := by
  have hcommand := h.commands o ho t ht
  refine ⟨hcommand.not_spacing, hcommand.not_boundary, ?_⟩
  rw [← Bool.not_eq_true, h.isCloser_iff]
  have hnamed := hcommand.2
  simp only [List.mem_cons, not_or] at hnamed
  simpa using hnamed.2.1

theorem operator (h : OperatorTable engine before after) {o : Entry Unit}
    (ho : o ∈ before ++ after) {name : String} (hname : o.name = some name) :
    ∃ t, engine.Operator .infixOp o t := by
  have hheadName := h.headName_eq ho hname
  have hnames := (h.names o ho name hname).1
  simp only [List.mem_cons, List.not_mem_nil, or_false, not_or] at hnames
  cases htriggers : o.triggers with
  | nil => exact absurd htriggers (h.triggered o ho)
  | cons t others =>
    have ht : t ∈ o.triggers := htriggers ▸ List.mem_cons_self
    have hcommand := h.commands o ho t ht
    refine ⟨t, h.ruled ho hname, h.bounded o ho, ?_, h.write_eq o ho, ?_, hcommand.word, ?_, ?_,
      ?_, ?_⟩
    · rw [hheadName]
      exact h.byName_eq ho hname
    · rw [htriggers]
      rfl
    · intro rest _
      have hreadings : engine.dictionary.readings (.command t.latex) = [] ++ ⟨o, t⟩ :: [] :=
        h.readings_operator ho ht
      exact Only.of_readings hreadings hcommand.tokens (h.opens_command ho ht) rfl (by simp)
        (by rw [h.kind_eq o ho]; decide) (by simp)
    · rw [hheadName]
      exact hnames.2.2
    · rw [hheadName]
      exact hnames.2.1
    · rw [hheadName]
      exact hnames.1

theorem parentheses_spec (h : OperatorTable engine before after) :
    engine.Parentheses parentheses (.ofLatex "\\left(") (.ofLatex "\\right)") := by
  refine Engine.parentheses_of_only ((h.isCloser_iff _).mpr rfl) ?_
  intro rest
  have hreadings : engine.dictionary.readings (.command "\\left") =
      [] ++ ⟨parentheses, .ofLatex "\\left("⟩ :: [] := h.readings_left
  refine Only.of_readings hreadings parentheses_open ⟨by decide, by decide, ?_⟩ rfl (by simp)
    (by decide) (by simp)
  rw [← Bool.not_eq_true, h.isCloser_iff]
  simp

/-! ### Its expressions -/

/-- Operators of equal precedence at the root of an operand group to the same side. -/
theorem same_side (h : OperatorTable engine before after) {o : Entry Unit}
    (ho : o ∈ before ++ after) {e : Expr} {root : Entry Unit}
    (hroot : rootOperator? engine.dictionary e = some root) (hkind : root.kind = .infixOp)
    (hprecedence : root.precedence = o.precedence) (hright : root.associativity = .right) :
    o.associativity = .right := by
  have hmem : root ∈ before ++ parentheses :: after := by
    unfold rootOperator? at hroot
    split at hroot
    · rename_i entry hfound
      split at hroot
      · cases hroot
        obtain ⟨name, -, hname⟩ := Option.bind_eq_some_iff.mp hfound
        rw [h.indexed.name_eq] at hname
        exact List.mem_of_find?_eq_some hname
      · cases hroot
    · cases hroot
  rcases mem_entries hmem with hmem | rfl
  · exact (h.sides root hmem o ho hprecedence).mp hright
  · cases hkind

theorem readAs (h : OperatorTable engine before after)
    (hpromotion : engine.options.promotion ≠ .never) {e : Expr}
    (he : OperatorTree (before ++ after) e) : ReadAs engine e e := by
  induction he with
  | letter halpha =>
    refine readAs_letter hpromotion halpha (h.free_char _) ?_
    intro entry hentry
    rw [h.indexed.name_eq] at hentry
    rcases mem_entries (List.mem_of_find?_eq_some hentry) with hmem | rfl
    · rw [h.kind_eq entry hmem]
      decide
    · decide
  | @call o name a b hmem hname _ _ iha ihb =>
    obtain ⟨trigger, hoperator⟩ := h.operator hmem hname
    have hheadName := h.headName_eq hmem hname
    have hread := readAs_between h.parentheses_spec hoperator iha ihb .nil
      (fun root hroot => h.same_side hmem hroot) (fun hne => absurd rfl hne)
    rw [hheadName] at hread
    -- the operands are no groups, and no operator is associative
    have hcall : engine.call name [a, b] = .call () name [a, b] := by
      refine Engine.call_of_none ?_ ?_
      · simp [iha.bare, ihb.bare]
      · intro hassociative
        rw [(h.names o hmem name hname).2] at hassociative
        cases hassociative
    rwa [hcall] at hread

/-- **The reader inverts the writer for every table of operators.**  Letters have to be symbols
    for that; an engine that promotes none reads each of them as an error. -/
theorem parse_latex (h : OperatorTable engine before after)
    (hpromotion : engine.options.promotion ≠ .never) {e : Expr}
    (he : OperatorTree (before ++ after) e) : engine.parse (engine.latex e) = e :=
  (h.readAs hpromotion he).parse_eq (Engine.accepted_of_ofEntries h.accepted)

end OperatorTable

/-! ### Arrows and joins -/

/-- Arrows, which group to the right. -/
def arrow : Entry Unit := (Entry.infixOp "Arrow" "\\to" 100).rightAssociative

/-- Joins, which bind more tightly and group to the left. -/
def joining : Entry Unit := Entry.infixOp "Join" "\\vee" 200

/-- The engine for arrows and joins. -/
def Engine.arrows : Engine Unit :=
  match Dictionary.ofEntries [arrow, parentheses, joining] with
  | .ok d => .ofDictionary d {}
  | .error _ => .ofDictionary .empty {}

theorem operatorTable_arrows : OperatorTable Engine.arrows [arrow] [joining] where
  accepted := by
    have hdefects :
        [arrow, parentheses, joining].all (fun entry => entry.defect?.isNone) = true := by
      decide +kernel
    obtain ⟨d, hd⟩ := Dictionary.exists_ofEntries_of_all hdefects
    show Dictionary.ofEntries [arrow, parentheses, joining] = _
    rw [Engine.arrows, hd]
    rfl
  kind_eq := by simp [arrow, joining, Entry.rightAssociative, Entry.infixOp, Entry.named]
  parse_eq := by simp [arrow, joining, Entry.rightAssociative, Entry.infixOp, Entry.named]
  write_eq := by simp [arrow, joining, Entry.rightAssociative, Entry.infixOp, Entry.named]
  triggered := by simp [arrow, joining, Entry.rightAssociative, Entry.infixOp, Entry.named]
  commands := by
    have harrow : IsOperatorCommand "\\to" :=
      ⟨⟨"to".toList, by decide, by decide, List.all_eq_true.mp (by decide)⟩, by decide⟩
    have hjoin : IsOperatorCommand "\\vee" :=
      ⟨⟨"vee".toList, by decide, by decide, List.all_eq_true.mp (by decide)⟩, by decide⟩
    simpa [arrow, joining, Entry.rightAssociative, Entry.infixOp, Entry.named, Trigger.ofLatex]
      using ⟨harrow, hjoin⟩
  names_nodup := by decide
  triggers_nodup := by decide
  bounded := by decide
  sides := by decide
  names := by
    have hnone : ∀ name, name = "Arrow" ∨ name = "Join" →
        Engine.arrows.isAssociative name = false := by
      rintro name (rfl | rfl) <;> decide +kernel
    simp [arrow, joining, Entry.rightAssociative, Entry.infixOp, Entry.named, hnone]

/-- Only the arrow on the left of an arrow stands in parentheses. -/
theorem parse_latex_arrows :
    OperatorTable Engine.arrows [arrow] [joining] ∧
    Engine.arrows.options.promotion ≠ .never ∧
    OperatorTree [arrow, joining]
      (.call () "Arrow" [.call () "Arrow" [.symbol "a", .symbol "b"],
        .call () "Join" [.symbol "c", .symbol "d"]]) ∧
    Engine.arrows.parse (Engine.arrows.latex
      (.call () "Arrow" [.call () "Arrow" [.symbol "a", .symbol "b"],
        .call () "Join" [.symbol "c", .symbol "d"]])) =
      .call () "Arrow" [.call () "Arrow" [.symbol "a", .symbol "b"],
        .call () "Join" [.symbol "c", .symbol "d"]] := by
  have hpromotion : Engine.arrows.options.promotion ≠ .never := by decide +kernel
  have hletter : ∀ c : Char, c.isAlpha = true →
      OperatorTree [arrow, joining] (.symbol (String.singleton c)) := fun c h => .letter h
  have htree : OperatorTree ([arrow] ++ [joining])
      (.call () "Arrow" [.call () "Arrow" [.symbol "a", .symbol "b"],
        .call () "Join" [.symbol "c", .symbol "d"]]) := by
    refine .call (o := arrow) (by simp) rfl (.call (o := arrow) (by simp) rfl ?_ ?_)
      (.call (o := joining) (by simp) rfl ?_ ?_)
    · exact hletter 'a' (by decide)
    · exact hletter 'b' (by decide)
    · exact hletter 'c' (by decide)
    · exact hletter 'd' (by decide)
  exact ⟨operatorTable_arrows, hpromotion, htree,
    OperatorTable.parse_latex operatorTable_arrows hpromotion htree⟩

end Formula
