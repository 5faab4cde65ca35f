import Formula.Proofs.OperatorChain
import Formula.Proofs.Reader.Parts
import Formula.Proofs.Standard.Operators

/-!
  **A new pair of signs around a sum.**

  The standard table gets one notation more: a sign in front of an expression and one behind it.
  Neither sign starts a standard notation.  Between two different signs a sum is read as it would
  be read alone, because the closing sign ends every expression, whatever is open.

  For the same reason nothing is read between two equal signs: where the pair should start every
  expression ends, before any notation is looked for.  The table is accepted, but the pair is never
  read, and both signs are errors.
-/

namespace Formula

open Latex Reader

/-! ### The table -/

/-- The notation is a sign in front of an expression and one behind it. -/
structure Entry.Encloses (entry : Entry Unit) (head : String) (opening closing : Char) :
    Prop where
  kind_eq : entry.kind = .matchfix
  parse_eq : entry.parse = .byKind
  name_eq : entry.name = some head
  triggers : ∃ trigger, entry.triggers = [trigger] ∧ trigger.tokens = [.char opening]
  close : ∃ close, entry.close = some close ∧ close.tokens = [.char closing]

/-- A sign that the standard notations leave free. -/
structure FreshSign (c : Char) : Prop where
  letter : Text.isAlphabetic c = false
  cell : c ≠ '&'
  avoids : ∀ entry ∈ (standardEntries : List (Entry Unit)), entry.Avoids (.char c)

/-- The engine knows the standard notations and, somewhere among them, the pair of signs. -/
structure PairEngine (engine : Engine Unit) (entry : Entry Unit) (head : String)
    (opening closing : Char) : Prop where
  accepted : ∃ before after, before ++ after = standardEntries ∧
    Dictionary.ofEntries (before ++ entry :: after) = .ok engine.dictionary
  encloses : entry.Encloses head opening closing
  head_ne : head ≠ "Add"
  opening : FreshSign opening
  closing : FreshSign closing
  associative : engine.isAssociative "Add" = true
  promotion : engine.options.promotion ≠ .never

/-- A letter of any alphabet. -/
def Token.isAlphabetic : Token → Bool
  | .char c => Text.isAlphabetic c
  | _ => false

theorem avoids_alphabetic {c : Char} (hc : Text.isAlphabetic c = true) :
    ∀ entry ∈ (standardEntries : List (Entry Unit)), entry.Avoids (.char c) :=
  @avoids_of_kind Token.isAlphabetic (by decide +kernel) (.char c) hc

namespace Entry.Encloses

variable {entry : Entry Unit} {head : String} {opening closing : Char}

theorem ruled (h : entry.Encloses head opening closing) :
    entry.Ruled .matchfix ∧ entry.headName = head :=
  Entry.ruled_of_byKind h.kind_eq h.parse_eq h.name_eq

theorem matchedTriggers_eq (h : entry.Encloses head opening closing) :
    entry.matchedTriggers = entry.triggers := by
  rw [Entry.matchedTriggers, if_neg]
  rw [h.kind_eq]
  decide

theorem readingsAt_opening (h : entry.Encloses head opening closing) :
    ∃ trigger, trigger.tokens = [.char opening] ∧
      entry.readingsAt (.char opening) = [⟨entry, trigger⟩] := by
  obtain ⟨trigger, htriggers, htokens⟩ := h.triggers
  refine ⟨trigger, htokens, ?_⟩
  rw [Entry.readingsAt, h.matchedTriggers_eq, htriggers,
    List.filter_cons_of_pos (by simp [htokens])]
  rfl

/-- The pair has no sign but its own two. -/
theorem avoids (h : entry.Encloses head opening closing) {c : Char} (hopening : c ≠ opening)
    (hclosing : c ≠ closing) : entry.Avoids (.char c) := by
  constructor
  · obtain ⟨trigger, htriggers, htokens⟩ := h.triggers
    intro t ht
    rw [h.matchedTriggers_eq, htriggers, List.mem_singleton] at ht
    rw [ht, htokens]
    simpa using hopening.symm
  · obtain ⟨close, hclose, htokens⟩ := h.close
    intro t ht
    rw [hclose, Option.mem_some_iff] at ht
    rw [← ht, htokens]
    simpa using hclosing.symm

theorem closesWith_iff (h : entry.Encloses head opening closing) {c : Char} :
    entry.closesWith (.char c) = true ↔ c = closing := by
  obtain ⟨close, hclose, htokens⟩ := h.close
  rw [Entry.closesWith, hclose, Option.any_some, htokens, h.kind_eq, Bool.and_eq_true]
  constructor
  · rintro ⟨-, hhead⟩
    cases beq_iff_eq.mp hhead
    rfl
  · rintro rfl
    exact ⟨rfl, beq_self_eq_true _⟩

end Entry.Encloses

/-- A notation of another kind makes no difference to what the tokens may stand for. -/
theorem Alone.insert {before after : List (Entry Unit)} {entry : Entry Unit} {kinds : List Kind}
    {t : Token} {tail : List Token} (h : Alone (before ++ after) kinds t tail)
    (hkind : entry.kind ∉ kinds) (hclose : entry.closesWith t = false) :
    Alone (before ++ entry :: after) kinds t tail := by
  have hreadings : readingsOf (before ++ entry :: after) kinds t =
      readingsOf (before ++ after) kinds t := by
    have hnone : (entry.readingsAt t).filter (·.entry.kind ∈ kinds) = [] := by
      rw [List.filter_eq_nil_iff]
      intro r hr
      rw [(Entry.mem_readingsAt hr).1]
      simpa using hkind
    rw [readingsOf, readingsOf, List.flatMap_append, List.flatMap_append, List.flatMap_cons,
      List.filter_append, List.filter_append, List.filter_append, hnone, List.nil_append]
  obtain ⟨⟨hspacing, hboundary, hcloser, hsign⟩, hcount, hothers⟩ := h
  rw [List.any_append] at hcloser
  unfold Alone StartsOperator
  rw [hreadings, List.any_append, List.any_cons, hclose, Bool.false_or]
  exact ⟨⟨hspacing, hboundary, hcloser, hsign⟩, hcount, hothers⟩

def plus : Entry Unit := .infixOp "Add" "+" 275

theorem plus_mem : plus ∈ (standardEntries : List (Entry Unit)) :=
  mem_standardEntries_of_operator List.mem_cons_self

theorem plus_tokens : (Trigger.ofLatex "+").tokens = [.char '+'] :=
  Trigger.tokens_of_word
    (word_char ⟨by decide, by decide, by decide, by decide, by decide⟩ (by decide))
    (by simp [Token.isSpace])

namespace PairEngine

variable {engine : Engine Unit} {entry : Entry Unit} {head : String} {opening closing : Char}

theorem exists_indexed (h : PairEngine engine entry head opening closing) :
    ∃ before after, before ++ after = standardEntries ∧
      Dictionary.Indexed (before ++ entry :: after) engine.dictionary := by
  obtain ⟨before, after, hstandard, haccepted⟩ := h.accepted
  exact ⟨before, after, hstandard, Dictionary.indexed_of_ofEntries haccepted⟩

theorem engine_accepted (h : PairEngine engine entry head opening closing) : engine.Accepted := by
  obtain ⟨before, after, -, haccepted⟩ := h.accepted
  exact Engine.accepted_of_ofEntries haccepted

/-- Where no standard notation starts only the pair may. -/
theorem readings_eq (h : PairEngine engine entry head opening closing) {t : Token}
    (ht : ∀ entry ∈ (standardEntries : List (Entry Unit)), entry.Avoids t) :
    engine.dictionary.readings t = entry.readingsAt t := by
  obtain ⟨before, after, hstandard, hindexed⟩ := h.exists_indexed
  have hnone : (before ++ after).flatMap (Entry.readingsAt t) = [] := by
    rw [hstandard, List.flatMap_eq_nil_iff]
    exact fun e he => Entry.readingsAt_eq_nil (ht e he).triggers
  rw [List.flatMap_append, List.append_eq_nil_iff] at hnone
  rw [hindexed.readings_eq, List.flatMap_append, List.flatMap_cons, hnone.1, hnone.2,
    List.nil_append, List.append_nil]

theorem isCloser_eq (h : PairEngine engine entry head opening closing) {t : Token}
    (ht : ∀ entry ∈ (standardEntries : List (Entry Unit)), entry.Avoids t) :
    engine.dictionary.isCloser t = entry.closesWith t := by
  obtain ⟨before, after, hstandard, hindexed⟩ := h.exists_indexed
  have hnone : (before ++ after).any (Entry.closesWith t) = false := by
    rw [hstandard, List.any_eq_false]
    exact fun e he => by simp [(ht e he).closesWith]
  rw [List.any_append, Bool.or_eq_false_iff] at hnone
  rw [hindexed.closer_eq, List.any_append, List.any_cons, hnone.1, hnone.2, Bool.false_or,
    Bool.or_false]

theorem free_letter (h : PairEngine engine entry head opening closing) {c : Char}
    (hc : Text.isAlphabetic c = true) : engine.Free (.char c) := by
  have hopening : c ≠ opening := by
    rintro rfl
    rw [h.opening.letter] at hc
    cases hc
  have hclosing : c ≠ closing := by
    rintro rfl
    rw [h.closing.letter] at hc
    cases hc
  obtain ⟨before, after, hstandard, hindexed⟩ := h.exists_indexed
  apply Engine.free_of_avoids hindexed
  have hothers := avoids_alphabetic hc
  rw [← hstandard, List.forall_mem_append] at hothers
  rw [List.forall_mem_append, List.forall_mem_cons]
  exact ⟨hothers.1, h.encloses.avoids hopening hclosing, hothers.2⟩

/-- **The closing sign ends every expression**, and of the two signs only that. -/
theorem isCloser_iff (h : PairEngine engine entry head opening closing) {c : Char}
    (hc : FreshSign c) : engine.dictionary.isCloser (.char c) = true ↔ c = closing := by
  rw [h.isCloser_eq hc.avoids, h.encloses.closesWith_iff]

theorem ends_closing (h : PairEngine engine entry head opening closing) (rest : List Token) :
    Ends engine (.char closing :: rest) := by
  rintro t ⟨rfl⟩
  exact Or.inr ((h.isCloser_iff h.closing).mpr rfl)

theorem opens_opening (h : PairEngine engine entry head opening closing)
    (hne : opening ≠ closing) : Opens engine (.char opening) := by
  refine ⟨rfl, ?_, ?_⟩
  · simpa [isBoundary] using h.opening.cell
  · rw [← Bool.not_eq_true, h.isCloser_iff h.opening]
    exact hne

/-- At the opening sign nothing but the pair may start. -/
theorem exists_candidates (h : PairEngine engine entry head opening closing)
    (tail : List Token) : ∃ consumed,
      engine.dictionary.candidates (.char opening :: tail) [.symbol, .prefixOp, .matchfix] =
        [⟨entry, consumed, tail⟩] := by
  obtain ⟨trigger, htokens, hreadings⟩ := h.encloses.readingsAt_opening
  refine ⟨(Token.char opening :: tail).length - tail.length,
    Dictionary.candidates_eq_singleton ?_⟩
  have hkind : entry.kind ∈ [Kind.symbol, .prefixOp, .matchfix] := by
    rw [h.encloses.kind_eq]
    decide
  rw [h.readings_eq h.opening.avoids, hreadings, List.filterMap_cons, if_pos hkind, Reading.match?,
    htokens, matchTokens, if_pos rfl]
  rfl

theorem only_plus (h : PairEngine engine entry head opening closing) (rest : List Token) :
    Only engine [.infixOp, .postfixOp] plus (.ofLatex "+") rest := by
  obtain ⟨before, after, hstandard, hindexed⟩ := h.exists_indexed
  have halone : Alone (before ++ after) [.infixOp, .postfixOp] (.char '+') [] := by
    rw [hstandard]
    decide +kernel
  have hkind : entry.kind ∉ [Kind.infixOp, .postfixOp] := by
    rw [h.encloses.kind_eq]
    decide
  have hclose : entry.closesWith (.char '+') = false := by
    have havoided : ¬ plus.Avoids (.char '+') := fun havoids =>
      havoids.triggers _ (List.mem_singleton_self _) (by rw [plus_tokens]; rfl)
    rw [← Bool.not_eq_true, h.encloses.closesWith_iff]
    rintro rfl
    exact havoided (h.closing.avoids plus plus_mem)
  have hmem : plus ∈ before ++ entry :: after := by
    have hstandardMem := plus_mem
    rw [← hstandard] at hstandardMem
    rcases List.mem_append.mp hstandardMem with hbefore | hafter
    · exact List.mem_append_left _ hbefore
    · exact List.mem_append_right _ (List.mem_cons_of_mem _ hafter)
  exact only_of_alone hindexed hmem (List.mem_singleton_self _) (by decide) plus_tokens
    (halone.insert hkind hclose) rest

end PairEngine

/-! ### Sums -/

/-- What follows the first letter of a sum. -/
def sumTokens (more : List Char) : List Token := more.flatMap fun c => [.char '+', .char c]

/-- The sum of letters; one alone is itself. -/
def sumOf (first : Char) : List Char → Expr
  | [] => letterSymbol first
  | more => .call () "Add" ((first :: more).map letterSymbol)

theorem sumOf_cons (first c : Char) (more : List Char) :
    sumOf first (c :: more) = .call () "Add" ((first :: c :: more).map letterSymbol) := rfl

theorem call_sumOf {engine : Engine Unit} (hassociative : engine.isAssociative "Add" = true)
    (first : Char) (more : List Char) (c : Char) :
    engine.call "Add" [sumOf first more, letterSymbol c] = sumOf first (more ++ [c]) := by
  cases more with
  | nil => exact Engine.call_leaves (isCall_letters [first, c])
  | cons d more =>
    rw [sumOf_cons, List.cons_append, sumOf_cons, ← List.cons_append, ← List.cons_append,
      List.map_append]
    exact Engine.call_leaves_snoc (by decide) (by decide) hassociative
      (isCall_letters (first :: d :: more)) rfl

/-- A sum is a call of no other head. -/
theorem hasHead_sumOf (first : Char) (more : List Char) {head : String} (hhead : head ≠ "Add") :
    (sumOf first more).hasHead head = false := by
  cases more with
  | nil => rfl
  | cons c more => simpa [sumOf_cons, Tree.hasHead] using hhead.symm

theorem isGrouping_sumOf (first : Char) (more : List Char) :
    (sumOf first more).isGrouping = false := by
  cases more with
  | nil => rfl
  | cons c more =>
    rw [sumOf_cons, Tree.isGrouping_call]
    simp

namespace PairEngine

variable {engine : Engine Unit} {entry : Entry Unit} {head : String} {opening closing : Char}

theorem expression_letter (h : PairEngine engine entry head opening closing) {stop : Terminator}
    (hstop : Proper engine stop) {c : Char} (hc : Text.isAlphabetic c = true)
    {rest ts : List Token} (hrest : Spells rest (.char c :: ts)) :
    ∃ tail, Spells tail ts ∧
      expression engine engine.host stop rest = completed engine stop (letterSymbol c) tail := by
  obtain ⟨tail, htail, hread⟩ :=
    expression_spelled_letter h.engine_accepted hstop hc (h.free_letter hc) hrest
  rw [Engine.letterValue_eq h.promotion] at hread
  exact ⟨tail, htail, hread⟩

theorem more_plus (h : PairEngine engine entry head opening closing) {stop : Terminator}
    (hstop : Proper engine stop) (hbound : stop.minPrec ≤ 275) {lhs rhs : Expr}
    {tail rest : List Token}
    (hrhs : expression engine engine.host (stop.withMinPrec 276) tail = pure (some rhs, rest)) :
    more engine stop lhs (.char '+' :: tail) =
      more engine stop (engine.call "Add" [lhs, rhs]) rest := by
  have honly := h.only_plus tail
  obtain ⟨t, ts, htokens, hopens, -, -⟩ := honly.opens
  obtain ⟨consumed, hfound⟩ := honly.found
  rw [plus_tokens] at htokens hfound
  cases htokens
  exact more_between h.engine_accepted hstop hopens hfound rfl rfl rfl hbound hrhs

/-- The right side of a plus ends at the next plus, or at the closing sign. -/
theorem halts_sum (h : PairEngine engine entry head opening closing) {more : List Char}
    {rest ts : List Token} (hrest : Spells rest (sumTokens more ++ .char closing :: ts)) :
    Halts engine 276 (skipSpace rest) := by
  cases more with
  | nil =>
    obtain ⟨tail, hskip, -⟩ := hrest.cons rfl
    rw [hskip]
    exact ⟨rfl, Or.inl (h.ends_closing tail)⟩
  | cons c more =>
    obtain ⟨tail, hskip, -⟩ := hrest.cons rfl
    have hhalts := (h.only_plus tail).halts (show plus.precedence < 276 by decide)
    rw [plus_tokens] at hhalts
    rw [hskip]
    exact hhalts

/-- **A sum is read up to the closing sign**, whatever is open. -/
theorem more_sum (h : PairEngine engine entry head opening closing) {stop : Terminator}
    (hstop : Proper engine stop) (hbound : stop.minPrec ≤ 275) (first : Char)
    (read : List Char) {more : List Char} (hmore : ∀ c ∈ more, Text.isAlphabetic c = true)
    {rest ts : List Token} (hrest : Spells rest (sumTokens more ++ .char closing :: ts)) :
    ∃ after, Reader.more engine stop (sumOf first read) rest =
      pure (sumOf first (read ++ more), .char closing :: after) ∧ Spells after ts := by
  induction more generalizing read rest with
  | nil =>
    obtain ⟨tail, hskip, htail⟩ := hrest.cons rfl
    refine ⟨tail, ?_, htail⟩
    rw [← more_skipSpace h.engine_accepted, hskip, List.append_nil]
    exact more_of_halts ⟨rfl, Or.inl (h.ends_closing tail)⟩
  | cons c more ih =>
    obtain ⟨tail, hskip, htail⟩ := hrest.cons rfl
    have hproper := hstop.withMinPrec 276
    obtain ⟨behind, hbehind, hread⟩ :=
      h.expression_letter hproper (hmore c List.mem_cons_self) htail
    have hrhs : expression engine engine.host (stop.withMinPrec 276) tail =
        pure (some (letterSymbol c), skipSpace behind) := by
      rw [hread, completed, ← more_skipSpace h.engine_accepted, more_of_halts (h.halts_sum hbehind)]
      rfl
    have hplace : Spells (skipSpace behind) (sumTokens more ++ .char closing :: ts) := by
      cases more with
      | nil => exact hbehind.after_blanks rfl
      | cons d more => exact hbehind.after_blanks rfl
    obtain ⟨after, hgo, hafter⟩ :=
      ih (read ++ [c]) (fun d hd => hmore d (List.mem_cons_of_mem c hd)) hplace
    refine ⟨after, ?_, hafter⟩
    rw [← more_skipSpace h.engine_accepted, hskip]
    rw [h.more_plus hstop hbound hrhs, call_sumOf h.associative, hgo, List.append_assoc,
      List.singleton_append]

theorem expression_sum (h : PairEngine engine entry head opening closing) {stop : Terminator}
    (hstop : Proper engine stop) (hbound : stop.minPrec ≤ 275) {first : Char} {more : List Char}
    (hletters : ∀ c ∈ first :: more, Text.isAlphabetic c = true) {rest ts : List Token}
    (hrest : Spells rest (.char first :: (sumTokens more ++ .char closing :: ts))) :
    ∃ after, expression engine engine.host stop rest =
      pure (some (sumOf first more), .char closing :: after) ∧ Spells after ts := by
  obtain ⟨tail, htail, hread⟩ :=
    h.expression_letter hstop (hletters first List.mem_cons_self) hrest
  have hmore : ∀ c ∈ more, Text.isAlphabetic c = true := fun c hc =>
    hletters c (List.mem_cons_of_mem first hc)
  obtain ⟨after, hgo, hafter⟩ := h.more_sum hstop hbound first [] hmore htail
  have hsum : Reader.more engine stop (letterSymbol first) tail =
      pure (sumOf first more, .char closing :: after) := hgo
  refine ⟨after, ?_, hafter⟩
  rw [hread, completed, hsum]
  rfl

/-! ### The pair around a sum -/

/-- A sum of letters between the two signs. -/
def tokens (opening closing first : Char) (more : List Char) : List Token :=
  .char opening :: .char first :: (sumTokens more ++ [.char closing])

/-- The pair has the sum for its only operand. -/
theorem call_contents (h : PairEngine engine entry head opening closing) (first : Char)
    (more : List Char) : engine.call head (contents head (sumOf first more)) =
      .call () head [sumOf first more] := by
  have hcontents : contents head (sumOf first more) = [sumOf first more] := by
    rw [contents, hasHead_sumOf first more (by decide), Bool.and_false]
    rfl
  rw [hcontents]
  apply Engine.call_of_none
  · intro op hop
    rw [List.mem_singleton.mp hop]
    exact isGrouping_sumOf first more
  · intro _ op hop
    rw [List.mem_singleton.mp hop, Tree.isValidCall, hasHead_sumOf first more h.head_ne,
      Bool.and_false]

/-- Between two different signs a sum is read. -/
theorem parseTokens_of_ne (h : PairEngine engine entry head opening closing)
    (hne : opening ≠ closing) {first : Char} {more : List Char}
    (hletters : ∀ c ∈ first :: more, Text.isAlphabetic c = true) {rest : List Token}
    (hrest : Spells rest (tokens opening closing first more)) :
    engine.parseTokens rest = .call () head [sumOf first more] := by
  have haccepted := h.engine_accepted
  obtain ⟨tail, hskip, htail⟩ := hrest.cons rfl
  obtain ⟨consumed, hfound⟩ := h.exists_candidates tail
  obtain ⟨⟨-, hrule, hhead⟩, hname⟩ := h.encloses.ruled
  rw [hname] at hhead
  obtain ⟨close, hclose, hcloseTokens⟩ := h.encloses.close
  have hproper : Proper engine { minPrec := 0, close := some close.tokens } := by
    rintro _ ⟨rfl⟩
    exact ⟨.char closing, [], hcloseTokens, (h.isCloser_iff h.closing).mpr rfl⟩
  obtain ⟨after, hbody, hafter⟩ := h.expression_sum hproper (Nat.zero_le _) hletters htail
  have hend : matchTokens close.tokens (skipSpace (.char closing :: after)) = some after := by
    rw [hcloseTokens, skipSpace_cons_of_not after rfl, matchTokens, if_pos rfl]
  have hprimary := primary_around proper_default (h.opens_opening hne) hfound h.encloses.kind_eq
    hrule hhead hclose hbody hend
  apply parseTokens_of_expression haccepted
  rw [← expression_skipSpace haccepted, hskip, expression_of_primary haccepted hprimary,
    h.call_contents, completed, ← more_skipSpace haccepted, hafter.nil, more_of_halts (halts_nil _)]
  rfl

/-- A sign that closes what is not open. -/
def unexpected (c : Char) : Expr :=
  Tree.errorCall .unexpectedDelimiter none (some (String.singleton c))

theorem leftover_closing (h : PairEngine engine entry head opening closing) (rest : List Token) :
    leftover engine engine.host (.char closing :: rest) = pure (unexpected closing, rest) := by
  have hcloser : engine.dictionary.isCloser (.char closing) = true :=
    (h.isCloser_iff h.closing).mpr rfl
  simp only [leftover, Token.isCommand, hcloser, Bool.or_true, Bool.false_eq_true, if_false,
    if_true, errorAt_eq, ofTokens_between_char]
  rfl

/-- The closing sign is a part of its own. -/
theorem partsFrom_closing (h : PairEngine engine entry head opening closing) (found : List Expr)
    (rest : List Token) : partsFrom engine found (.char closing :: rest) =
      partsFrom engine (found ++ [unexpected closing]) rest := by
  have hnone : expression engine engine.host {} (.char closing :: rest) =
      pure (none, .char closing :: rest) :=
    expression_of_ends h.engine_accepted {} (h.ends_closing rest)
  exact partsFrom_leftover h.engine_accepted rfl hnone (h.leftover_closing rest) found

/-- Between two equal signs a sum is read, but not the pair. -/
theorem parseTokens_of_eq (h : PairEngine engine entry head opening closing)
    (heq : opening = closing) {first : Char} {more : List Char}
    (hletters : ∀ c ∈ first :: more, Text.isAlphabetic c = true) {rest : List Token}
    (hrest : Spells rest (tokens opening closing first more)) :
    engine.parseTokens rest =
      .call () "Sequence" [unexpected opening, sumOf first more, unexpected opening] := by
  subst heq
  have haccepted := h.engine_accepted
  obtain ⟨tail, hskip, htail⟩ := hrest.cons rfl
  obtain ⟨after, hread, hafter⟩ :=
    h.expression_sum proper_default (Nat.zero_le _) hletters htail
  have hparts : partsFrom engine [] rest =
      pure ([unexpected opening, sumOf first more, unexpected opening], []) := by
    rw [← partsFrom_skipSpace haccepted, hskip, h.partsFrom_closing,
      partsFrom_expression haccepted hread, h.partsFrom_closing, partsFrom_end hafter.nil]
    rfl
  have hbare : ∀ op ∈ [unexpected opening, sumOf first more, unexpected opening],
      op.hasHead "Sequence" = false ∧ op.isGrouping = false := by
    have hunexpected : (unexpected opening).hasHead "Sequence" = false ∧
        (unexpected opening).isGrouping = false := ⟨rfl, rfl⟩
    have hsum := And.intro (hasHead_sumOf first more (show "Sequence" ≠ "Add" by decide))
      (isGrouping_sumOf first more)
    simpa only [List.forall_mem_cons, List.not_mem_nil, false_implies, implies_true, and_true]
      using ⟨hunexpected, hsum, hunexpected⟩
  rw [parseTokens_parts haccepted, hparts]
  show Id.run (build engine engine.host "Sequence" _) = _
  rw [build_eq]
  apply Engine.call_of_none
  · exact fun op hop => (hbare op hop).2
  · intro _ op hop
    rw [Tree.isValidCall, (hbare op hop).1, Bool.and_false]

/-- **A pair is read just if its signs differ.** -/
theorem parse_pair_iff (h : PairEngine engine entry head opening closing) {first : Char}
    {more : List Char} (hletters : ∀ c ∈ first :: more, Text.isAlphabetic c = true)
    {latex : String} (hlatex : Spells (tokenize latex) (tokens opening closing first more)) :
    (engine.parse latex = .call () head [sumOf first more] ↔ opening ≠ closing) ∧
      (opening = closing → engine.parse latex =
        .call () "Sequence" [unexpected opening, sumOf first more, unexpected opening]) := by
  refine ⟨⟨?_, fun hne => h.parseTokens_of_ne hne hletters hlatex⟩,
    fun heq => h.parseTokens_of_eq heq hletters hlatex⟩
  intro hparse heq
  rw [Engine.parse, h.parseTokens_of_eq heq hletters hlatex] at hparse
  simp at hparse

end PairEngine

/-! ### Brackets and bars -/

/-- The standard engine with one notation more. -/
def Engine.withNotation (entry : Entry Unit) : Engine Unit :=
  match Dictionary.ofEntries (standardEntries ++ [entry]) with
  | .ok d => .ofDictionary d {}
  | .error _ => .standard

/-- Any two fresh signs make a pair. -/
theorem pairEngine_withNotation {head opening closing : String} {o c : Char}
    (hopening : (Trigger.ofLatex opening).tokens = [.char o])
    (hclosing : (Trigger.ofLatex closing).tokens = [.char c]) (hhead : head ≠ "Add")
    (hsound : (Entry.matchfix head opening closing : Entry Unit).defect? = none)
    (ho : FreshSign o) (hc : FreshSign c) :
    PairEngine (Engine.withNotation (.matchfix head opening closing))
      (.matchfix head opening closing) head o c := by
  have hdefects : (standardEntries ++ [Entry.matchfix head opening closing]).all
      (fun entry : Entry Unit => entry.defect?.isNone) = true := by
    rw [List.all_append, all_sound_standardEntries, List.all_cons, hsound]
    rfl
  obtain ⟨d, hd⟩ := Dictionary.exists_ofEntries_of_all hdefects
  have hengine : Engine.withNotation (.matchfix head opening closing) =
      .ofDictionary d {} := by
    rw [Engine.withNotation, hd]
  rw [hengine]
  refine ⟨⟨standardEntries, [], List.append_nil _, hd⟩, ?_, hhead, ho, hc, ?_, ?_⟩
  · exact ⟨rfl, rfl, rfl, ⟨_, rfl, hopening⟩, ⟨_, rfl, hclosing⟩⟩
  · show ((Standard.setFunctions ++ Standard.arithmeticFunctions).lookup "Add").any
      FunctionInfo.associative = true
    decide
  · show ({} : Options).promotion ≠ .never
    decide

/-- No standard notation is written with a bracket or a bar that stands alone. -/
theorem freshSign_of_mem {c : Char} (hc : c ∈ ['[', ']', '|']) : FreshSign c := by
  have hletters : ['[', ']', '|'].all (fun c => !Text.isAlphabetic c && c != '&') = true := by
    decide +kernel
  have havoids : (standardEntries : List (Entry Unit)).all (fun entry =>
      ['[', ']', '|'].all fun c => entry.Avoids (.char c)) = true := by
    decide +kernel
  have hletter := List.all_eq_true.mp hletters c hc
  rw [Bool.and_eq_true, Bool.not_eq_true', bne_iff_ne] at hletter
  refine ⟨hletter.1, hletter.2, fun entry hentry => ?_⟩
  have hsigns := List.all_eq_true.mp havoids entry hentry
  exact of_decide_eq_true (List.all_eq_true.mp hsigns c hc)

def brackets : Entry Unit := .matchfix "Bracket" "[" "]"

theorem pairEngine_brackets :
    PairEngine (Engine.withNotation brackets) brackets "Bracket" '[' ']' :=
  pairEngine_withNotation (by decide +kernel) (by decide +kernel) (by decide) (by decide +kernel)
    (freshSign_of_mem (by simp)) (freshSign_of_mem (by simp))

/-- A sum in brackets is read, with blanks as well. -/
theorem parse_brackets :
    PairEngine (Engine.withNotation brackets) brackets "Bracket" '[' ']' ∧
    (Engine.withNotation brackets).parse "[x + y]" =
      .call () "Bracket" [.call () "Add" [.symbol "x", .symbol "y"]] := by
  refine ⟨pairEngine_brackets, ?_⟩
  have htokens : Spells (tokenize "[x + y]") (PairEngine.tokens '[' ']' 'x' ['y']) := by
    unfold Spells
    decide +kernel
  exact (pairEngine_brackets.parse_pair_iff (List.all_eq_true.mp (by decide +kernel)) htokens).1.mpr
    (by decide)

def bars : Entry Unit := .matchfix "Abs" "|" "|"

theorem pairEngine_bars : PairEngine (Engine.withNotation bars) bars "Abs" '|' '|' :=
  pairEngine_withNotation (by decide +kernel) (by decide +kernel) (by decide) (by decide +kernel)
    (freshSign_of_mem (by simp)) (freshSign_of_mem (by simp))

/-- A letter between bars is not read: the first bar ends what has not begun. -/
theorem parse_bars :
    PairEngine (Engine.withNotation bars) bars "Abs" '|' '|' ∧
    tokenize "|x|" = PairEngine.tokens '|' '|' 'x' [] ∧
    (Engine.withNotation bars).parse "|x|" ≠ .call () "Abs" [.symbol "x"] := by
  have htokens : tokenize "|x|" = PairEngine.tokens '|' '|' 'x' [] := by decide +kernel
  have hspells : Spells (tokenize "|x|") (PairEngine.tokens '|' '|' 'x' []) := by
    rw [htokens]
    rfl
  refine ⟨pairEngine_bars, htokens, ?_⟩
  have hletter : ∀ c ∈ ['x'], Text.isAlphabetic c = true :=
    List.all_eq_true.mp (by decide +kernel)
  rw [Engine.parse, pairEngine_bars.parseTokens_of_eq rfl hletter hspells]
  simp

end Formula
