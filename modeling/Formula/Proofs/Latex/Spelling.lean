import Formula.Proofs.Latex.Pieces
import Formula.Proofs.Reader.Phrase
import Formula.Standard

/-!
  **Expressions as phrases.**

  The LaTeX of an expression is the text of a phrase.  A `Spelling` relates the three: the text has
  the tokens of the phrase, the phrase is grouped, and its value is the expression.  It also keeps
  what the operator around it has to know, which is how tightly the operators on the edges of the
  phrase bind, measured by the operator at the root of the expression.

  An operand stands in a phrase of its own, in parentheses where the writer puts them.  Where it
  stands without them the operator at its root is tight enough for its side, and so the phrase of
  the whole is grouped again.
-/

namespace Formula

open Latex Reader

/-! ### Operators of a dictionary -/

/-- The bound with which an operator reads what stands to its right. -/
def Entry.operandBound (entry : Entry Unit) : Nat :=
  match entry.kind with
  | .prefixOp => entry.precedence + 1
  | _ => entry.sideBound

theorem Entry.precedence_le_operandBound (entry : Entry Unit) :
    entry.precedence ≤ entry.operandBound := by
  unfold operandBound
  split
  · exact Nat.le_succ _
  · exact entry.precedence_le_sideBound

/-- The operator that an expression is a call of. -/
def Latex.rootOperator? (d : Dictionary Unit) (e : Expr) : Option (Entry Unit) :=
  match e.headName?.bind d.byName? with
  | some entry => if entry.kind = .infixOp ∨ entry.kind = .prefixOp then some entry else none
  | none => none

theorem Latex.operandPrecedence_eq (d : Dictionary Unit) (e : Expr) :
    operandPrecedence? d e = (rootOperator? d e).map Entry.precedence := by
  unfold operandPrecedence? rootOperator?
  cases e.headName?.bind d.byName? with
  | none => rfl
  | some entry =>
    dsimp only
    split <;> rfl

/-- A character or an opening parenthesis. -/
def Token.startsOperand : Token → Bool
  | .char _ => true
  | .command text => text == "\\left"
  | _ => false

/-- An operand may stand here. -/
def Plain (tokens : List Token) : Prop :=
  ∃ t tail, tokens.dropWhile Token.isSpace = t :: tail ∧ t.startsOperand = true

theorem plain_of_head {t : Token} (ht : t.startsOperand = true) (rest : List Token) :
    Plain (t :: rest) := by
  refine ⟨t, rest, ?_, ht⟩
  cases t with
  | space => cases ht
  | command text => rfl
  | groupStart => rfl
  | groupEnd => rfl
  | char c => rfl

theorem Plain.append {tokens : List Token} (h : Plain tokens) (rest : List Token) :
    Plain (tokens ++ rest) := by
  obtain ⟨t, tail, htokens, ht⟩ := h
  refine ⟨t, tail ++ rest, ?_, ht⟩
  rw [List.dropWhile_append, htokens]
  rfl

/-- The kinds of the notations among which an operator is looked up. -/
def Kind.rivals : Kind → List Kind
  | .infixOp => [.infixOp, .postfixOp]
  | _ => [.symbol, .prefixOp, .matchfix]

namespace Engine

/-- An operator that is written with the trigger and read back from it. -/
structure Operator (engine : Engine Unit) (kind : Kind) (entry : Entry Unit) (trigger : Trigger) :
    Prop where
  ruled : entry.Ruled kind
  bounded : entry.precedence ≤ 65534
  named : engine.dictionary.byName? entry.headName = some entry
  written : entry.write = .byKind
  first : entry.triggers.head? = some trigger
  word : Word trigger.latex.toList trigger.tokens
  only : ∀ rest, Plain rest → Only engine kind.rivals entry trigger rest
  notError : entry.headName ≠ "Error"
  notSequence : entry.headName ≠ "Sequence"
  notGroup : entry.headName ≠ "Delimiter"

/-- A pair of parentheses as the writer puts them, which stands for a group. -/
structure Parentheses (engine : Engine Unit) (entry : Entry Unit) (trigger close : Trigger) :
    Prop where
  ruled : entry.Ruled .matchfix
  head : entry.headName = "Delimiter"
  close_eq : entry.close = some close
  trigger_tokens : trigger.tokens = [.command "\\left", .char '(']
  close_tokens : close.tokens = [.command "\\right", .char ')']
  closer : engine.dictionary.isCloser (.command "\\right") = true
  only : ∀ rest, Only engine [.symbol, .prefixOp, .matchfix] entry trigger rest

end Engine

/-- The operator is tight enough at the root of what stands to the left of another. -/
structure Entry.FitsLeft (entry root : Entry Unit) : Prop where
  bound : entry.precedence < root.operandBound
  precedence : root.kind = .infixOp → entry.precedence ≤ root.precedence

/-- The operator is tight enough at the root of what stands to the right of another. -/
structure Entry.FitsRight (entry root : Entry Unit) : Prop where
  bound : entry.operandBound ≤ root.operandBound
  precedence : root.kind = .infixOp → entry.operandBound ≤ root.precedence

/-- The text of the expression is that of the phrase, whose edges are as tight as the root. -/
structure Spelling (engine : Engine Unit) (root : Option (Entry Unit)) (text : List Char)
    (φ : Phrase) (e : Expr) : Prop where
  ne : text ≠ []
  scans : Scans text φ.tokens
  plain : Plain φ.tokens
  grouped : φ.Grouped engine
  value_eq : φ.value engine = e
  valid : e.valid = true
  bare : e.isGrouping = false
  left : ∀ p ∈ φ.leftEdge, ∃ o, root = some o ∧ o.kind = .infixOp ∧ o.precedence ≤ p
  right : ∀ b ∈ φ.rightEdge, ∃ o, root = some o ∧ o.operandBound ≤ b

/-- The text of an operand, whose edges are as tight as an operator that fits. -/
structure Operand (engine : Engine Unit) (Fits : Entry Unit → Prop) (text : List Char)
    (φ : Phrase) (e : Expr) : Prop where
  ne : text ≠ []
  scans : Scans text φ.tokens
  plain : Plain φ.tokens
  grouped : φ.Grouped engine
  opens : Tree.opened (φ.value engine) = [e]
  valid : e.valid = true
  bare : e.isGrouping = false
  left : ∀ p ∈ φ.leftEdge, ∃ o, Fits o ∧ o.kind = .infixOp ∧ o.precedence ≤ p
  right : ∀ b ∈ φ.rightEdge, ∃ o, Fits o ∧ o.operandBound ≤ b

variable {engine : Engine Unit}

/-! ### Parentheses -/

/-- A text in parentheses if it needs them, as characters. -/
def Latex.wrap (needed : Bool) (text : List Char) : List Char :=
  if needed then "\\left(".toList ++ text ++ "\\right)".toList else text

theorem Latex.parenthesize_toList (needed : Bool) (latex : String) :
    (parenthesize needed latex).toList = wrap needed latex.toList := by
  unfold parenthesize wrap
  split
  · have hjoin : joinChars ["\\left(".toList, latex.toList, "\\right)".toList] =
        "\\left(".toList ++ latex.toList ++ "\\right)".toList := by
      show append (append (append [] "\\left(".toList) latex.toList) "\\right)".toList = _
      have hopen : endsWithCommand "\\left(".toList = false := by decide
      have hclose : startsWithLetter "\\right)".toList = false := by decide
      rw [append_of_start hclose, nil_append, append_of_not_command hopen]
    unfold join
    rw [String.toList_ofList, ← hjoin]
    rfl
  · rfl

theorem Latex.scans_open : Scans "\\left(".toList [.command "\\left", .char '('] := by
  intro after
  have hcommand : Token.scan ('\\' :: "left".toList ++ '(' :: after) = _ :=
    scan_command (by decide) (List.all_eq_true.mp (by decide)) rfl
  have hchar := scans_char (c := '(') ⟨by decide, by decide, by decide, by decide, by decide⟩ after
  exact hcommand.trans (congrArg _ hchar)

theorem Latex.scans_close : Scans "\\right)".toList [.command "\\right", .char ')'] := by
  intro after
  have hcommand : Token.scan ('\\' :: "right".toList ++ ')' :: after) = _ :=
    scan_command (by decide) (List.all_eq_true.mp (by decide)) rfl
  have hchar := scans_char (c := ')') ⟨by decide, by decide, by decide, by decide, by decide⟩ after
  exact hcommand.trans (congrArg _ hchar)

theorem Trigger.tokens_of_tokenize {trigger : Trigger} {tokens : List Token}
    (h : tokenize trigger.latex = tokens) (hspace : ∀ t ∈ tokens, t.isSpace = false) :
    trigger.tokens = tokens := by
  rw [trigger.tokens_eq, triggerTokens, h, List.filter_eq_self]
  intro t ht
  rw [hspace t ht]
  rfl

/-- A trigger without blanks has the tokens of its text. -/
theorem Trigger.tokens_of_word {latex : String} {tokens : List Token}
    (h : Word latex.toList tokens) (hspace : ∀ t ∈ tokens, t.isSpace = false) :
    (Trigger.ofLatex latex).tokens = tokens := by
  have hscan := h.scan_eq [] fun _ => rfl
  rw [List.append_nil, scan_nil, List.append_nil] at hscan
  exact Trigger.tokens_of_tokenize hscan hspace

/-- Groups in parentheses. -/
def parentheses : Entry Unit := .matchfix "Delimiter" "\\left(" "\\right)"

theorem parentheses_open : (Trigger.ofLatex "\\left(").tokens = [.command "\\left", .char '('] :=
  Trigger.tokens_of_tokenize scans_open.tokenize_eq (by simp [Token.isSpace])

theorem parentheses_close : (Trigger.ofLatex "\\right)").tokens = [.command "\\right", .char ')'] :=
  Trigger.tokens_of_tokenize scans_close.tokenize_eq (by simp [Token.isSpace])

theorem Engine.parentheses_of_only
    (hcloser : engine.dictionary.isCloser (.command "\\right") = true)
    (honly : ∀ rest, Only engine [.symbol, .prefixOp, .matchfix] parentheses
      (.ofLatex "\\left(") rest) :
    engine.Parentheses parentheses (.ofLatex "\\left(") (.ofLatex "\\right)") where
  ruled := ⟨rfl, rfl, rfl⟩
  head := rfl
  close_eq := rfl
  trigger_tokens := parentheses_open
  close_tokens := parentheses_close
  closer := hcloser
  only := honly

/-- An operand that fits may stand as it is. -/
theorem Spelling.bareOperand {root : Option (Entry Unit)} {text : List Char} {φ : Phrase}
    {e : Expr} (h : Spelling engine root text φ e) {Fits : Entry Unit → Prop}
    (hfits : ∀ o, root = some o → Fits o) : Operand engine Fits text φ e := by
  refine ⟨h.ne, h.scans, h.plain, h.grouped, ?_, h.valid, h.bare, ?_, ?_⟩
  · rw [h.value_eq]
    exact Tree.opened_of_not_grouping h.bare
  · intro p hp
    obtain ⟨o, hroot, hkind, hle⟩ := h.left p hp
    exact ⟨o, hfits o hroot, hkind, hle⟩
  · intro b hb
    obtain ⟨o, hroot, hle⟩ := h.right b hb
    exact ⟨o, hfits o hroot, hle⟩

/-- An operand that need not fit stands in parentheses. -/
theorem Spelling.operand {paren : Entry Unit} {trigger close : Trigger}
    (hparen : engine.Parentheses paren trigger close) {root : Option (Entry Unit)}
    {text : List Char} {φ : Phrase} {e : Expr} (h : Spelling engine root text φ e)
    {needed : Bool} {Fits : Entry Unit → Prop}
    (hfits : needed = false → ∀ o, root = some o → Fits o) :
    ∃ ψ, Operand engine Fits (wrap needed text) ψ e := by
  cases needed with
  | false => exact ⟨φ, h.bareOperand (hfits rfl)⟩
  | true =>
    refine ⟨.around paren trigger close φ, ?_, ?_, ?_, ?_, ?_, h.valid, h.bare, ?_, ?_⟩
    · simp [wrap]
    · rw [Phrase.tokens, hparen.trigger_tokens, hparen.close_tokens]
      exact (scans_open.append h.scans).append scans_close
    · rw [Phrase.tokens, hparen.trigger_tokens]
      exact plain_of_head rfl _
    · refine ⟨hparen.ruled, hparen.close_eq, ?_, fun rest => hparen.only _, h.grouped⟩
      exact ⟨_, _, hparen.close_tokens, hparen.closer, by decide, by decide, by decide⟩
    · -- the group is opened again by the call around it
      have hvalue : (Phrase.around paren trigger close φ).value engine =
          .call () "Delimiter" [e] := by
        rw [Phrase.value, hparen.head, h.value_eq]
        rfl
      have hsequence : e.isEmptySequence = false := by
        have hbare := h.bare
        rw [Tree.isGrouping, h.valid, Bool.true_and, Bool.or_eq_false_iff] at hbare
        rw [Tree.isEmptySequence, hbare.1, Bool.false_and]
      have hvalid : (Tree.call () "Delimiter" [e]).valid = true := by
        rw [Tree.valid_call, Tree.allValid, Tree.allValid, h.valid]
        rfl
      rw [hvalue, Tree.opened_group hvalid, hsequence, if_neg Bool.false_ne_true]
      exact Tree.opened_of_not_grouping h.bare
    · rintro p ⟨⟩
    · rintro b ⟨⟩

/-! ### Blanks behind commands -/

/-- A phrase behind an operator, with the blank that is put between them. -/
def Phrase.behind (word text : List Char) (φ : Phrase) : Phrase :=
  if startsWithLetter text && endsWithCommand word then .spaced φ else φ

section

variable (word text : List Char) (φ : Phrase)

theorem Phrase.behind_tokens : (φ.behind word text).tokens = gapTokens word text ++ φ.tokens := by
  unfold behind gapTokens
  split <;> rfl

theorem Phrase.behind_value : (φ.behind word text).value engine = φ.value engine := by
  unfold behind
  split <;> rfl

theorem Phrase.behind_grouped : (φ.behind word text).Grouped engine ↔ φ.Grouped engine := by
  unfold behind
  split <;> rfl

theorem Phrase.behind_leftEdge : (φ.behind word text).leftEdge = φ.leftEdge := by
  unfold behind
  split <;> rfl

theorem Phrase.behind_rightEdge : (φ.behind word text).rightEdge = φ.rightEdge := by
  unfold behind
  split <;> rfl

end

theorem Plain.behind {φ : Phrase} (h : Plain φ.tokens) (word text : List Char) :
    Plain (φ.behind word text).tokens := by
  rw [Phrase.behind_tokens]
  unfold gapTokens
  split
  · exact h
  · exact h

/-! ### Operators and their operands -/

variable {entry : Entry Unit} {trigger : Trigger}

/-- What is read of an operator and its operands. -/
theorem Engine.Operator.call_spec {kind : Kind} (ho : engine.Operator kind entry trigger)
    {values ops : List Expr} (hopened : Tree.openedAll values = ops)
    (hvalid : ∀ op ∈ ops, op.valid = true) (hbare : ∀ op ∈ ops, op.isGrouping = false) :
    engine.call entry.headName values = engine.call entry.headName ops ∧
      (engine.call entry.headName ops).valid = true ∧
      (engine.call entry.headName ops).isGrouping = false := by
  refine ⟨Engine.call_congr ho.notGroup ?_, Engine.call_valid ho.notError hvalid, ?_⟩
  · rw [hopened, Tree.openedAll_of_none hbare]
  · rw [Engine.call, Tree.isGrouping_call]
    simp [ho.notGroup, ho.notSequence]

/-- An operator between two operands that fit. -/
theorem Spelling.between (ho : engine.Operator .infixOp entry trigger)
    {text text' : List Char} {φ φ' : Phrase} {a b : Expr}
    (ha : Operand engine entry.FitsLeft text φ a)
    (hb : Operand engine entry.FitsRight text' φ' b) :
    Spelling engine (some entry)
      (text ++ trigger.latex.toList ++ gap trigger.latex.toList text' ++ text')
      (.between entry trigger φ (φ'.behind trigger.latex.toList text'))
      (engine.call entry.headName [a, b]) := by
  have hkind : entry.operandBound = rightBound entry := by
    rw [Entry.operandBound, ho.ruled.kind_eq, rightBound_eq ho.bounded]
  have hplain := hb.plain.behind trigger.latex.toList text'
  have hopened : Tree.openedAll [φ.value engine, φ'.value engine] = [a, b] := by
    simp [Tree.openedAll_cons, ha.opens, hb.opens]
  obtain ⟨hcall, hvalid, hbare⟩ :=
    ho.call_spec hopened (by simp [ha.valid, hb.valid]) (by simp [ha.bare, hb.bare])
  refine ⟨?_, ?_, ?_, ⟨ho.ruled, ?_, ha.grouped, ?_, ?_, ?_⟩, ?_, hvalid, hbare, ?_, ?_⟩
  · simp [ha.ne]
  · have hscans := ha.scans.append (scans_word_operand ho.word hb.ne hb.scans)
    simpa [Phrase.tokens, Phrase.behind_tokens] using hscans
  · rw [Phrase.tokens, List.append_assoc]
    exact ha.plain.append _
  · intro rest
    exact ho.only _ (hplain.append rest)
  · exact (Phrase.behind_grouped _ _ φ').mpr hb.grouped
  · rw [Phrase.behind_leftEdge]
    intro p hp
    obtain ⟨o, hfits, hbetween, hle⟩ := hb.left p hp
    exact Nat.le_trans (hkind ▸ hfits.precedence hbetween) hle
  · intro p hp
    obtain ⟨o, hfits, hle⟩ := ha.right p hp
    exact Nat.lt_of_lt_of_le hfits.bound hle
  · rw [Phrase.value, Phrase.behind_value, hcall]
  · intro p hp
    rcases List.mem_cons.mp hp with rfl | hp
    · exact ⟨entry, rfl, ho.ruled.kind_eq, Nat.le_refl _⟩
    · obtain ⟨o, hfits, hbetween, hle⟩ := ha.left p hp
      exact ⟨entry, rfl, ho.ruled.kind_eq, Nat.le_trans (hfits.precedence hbetween) hle⟩
  · intro p hp
    rw [Phrase.rightEdge, Phrase.behind_rightEdge] at hp
    rcases List.mem_cons.mp hp with rfl | hp
    · exact ⟨entry, rfl, Nat.le_of_eq hkind⟩
    · obtain ⟨o, hfits, hle⟩ := hb.right p hp
      exact ⟨entry, rfl, Nat.le_trans hfits.bound hle⟩

/-- One more operand behind a call of an associative operator.  What was read so far is the call
    of the operands in front, and the engine adds the new operand to it. -/
theorem Spelling.extend (ho : engine.Operator .infixOp entry trigger)
    (hleft : entry.associativity ≠ .right)
    (hassociative : engine.isAssociative entry.headName = true) {text text' : List Char}
    {φ φ' : Phrase} {xs : List Expr} {b : Expr}
    (hxs : Spelling engine (some entry) text φ (engine.call entry.headName xs))
    (hb : Operand engine entry.FitsRight text' φ' b) :
    Spelling engine (some entry)
      (text ++ trigger.latex.toList ++ gap trigger.latex.toList text' ++ text')
      (.between entry trigger φ (φ'.behind trigger.latex.toList text'))
      (engine.call entry.headName (xs ++ [b])) := by
  have hself : entry.FitsLeft entry := by
    refine ⟨?_, fun _ => Nat.le_refl _⟩
    rw [Entry.operandBound, ho.ruled.kind_eq]
    exact Entry.precedence_lt_sideBound hleft
  have ha : Operand engine entry.FitsLeft text φ (engine.call entry.headName xs) := by
    apply hxs.bareOperand
    rintro o ⟨rfl⟩
    exact hself
  have happend := Engine.call_append ho.notGroup hassociative hxs.valid [b]
  rw [← happend]
  exact Spelling.between ho ha hb

/-- An operator in front of an operand that fits. -/
theorem Spelling.before (ho : engine.Operator .prefixOp entry trigger) {text : List Char}
    {φ : Phrase} {a : Expr} (ha : Operand engine entry.FitsRight text φ a)
    (hfirst : Plain trigger.tokens) :
    Spelling engine (some entry)
      (trigger.latex.toList ++ gap trigger.latex.toList text ++ text)
      (.before entry trigger (φ.behind trigger.latex.toList text))
      (engine.call entry.headName [a]) := by
  have hkind : entry.operandBound = boundAbove entry.precedence := by
    rw [Entry.operandBound, ho.ruled.kind_eq, boundAbove_of_le ho.bounded]
  have hplain := ha.plain.behind trigger.latex.toList text
  have hopened : Tree.openedAll [φ.value engine] = [a] := by
    simp [Tree.openedAll_cons, ha.opens]
  obtain ⟨hcall, hvalid, hbare⟩ :=
    ho.call_spec hopened (by simp [ha.valid]) (by simp [ha.bare])
  refine ⟨?_, ?_, hfirst.append _, ⟨ho.ruled, ?_, ?_, ?_⟩, ?_, hvalid, hbare, ?_, ?_⟩
  · simp [ha.ne]
  · have hscans := scans_word_operand ho.word ha.ne ha.scans
    simpa [Phrase.tokens, Phrase.behind_tokens] using hscans
  · intro rest
    exact ho.only _ (hplain.append rest)
  · exact (Phrase.behind_grouped _ _ φ).mpr ha.grouped
  · rw [Phrase.behind_leftEdge]
    intro p hp
    obtain ⟨o, hfits, hbetween, hle⟩ := ha.left p hp
    exact Nat.le_trans (hkind ▸ hfits.precedence hbetween) hle
  · rw [Phrase.value, Phrase.behind_value, hcall]
  · rintro p ⟨⟩
  · intro p hp
    rw [Phrase.rightEdge, Phrase.behind_rightEdge] at hp
    rcases List.mem_cons.mp hp with rfl | hp
    · exact ⟨entry, rfl, Nat.le_of_eq hkind⟩
    · obtain ⟨o, hfits, hle⟩ := ha.right p hp
      exact ⟨entry, rfl, Nat.le_trans hfits.bound hle⟩

end Formula
