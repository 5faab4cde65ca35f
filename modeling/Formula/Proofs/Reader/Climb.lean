import Formula.Proofs.Reader.Termination

/-!
  **Reading without bounds.**

  Where an engine has an accepted dictionary the bounds on the steps can be left out of the
  account: an expression is a primary one, read with the same function for what is nested in it,
  and `more` reads the operators after an expression.  This module gives the steps of both.

  What may follow an expression is described by two properties of a place.  It `Ends` there if the
  next token ends every expression, and it `Halts` there for a bound if it ends or if the only
  operators that start there bind less tightly than the bound.
-/

namespace Formula

/-- An engine whose tables hold what the entries of its dictionary say. -/
def Engine.Accepted (engine : Engine Unit) : Prop :=
  Dictionary.Indexed engine.dictionary.entries engine.dictionary

theorem Engine.accepted_of_ofEntries {engine : Engine Unit} {entries : List (Entry Unit)}
    (h : Dictionary.ofEntries entries = .ok engine.dictionary) : engine.Accepted := by
  have hindexed := Dictionary.indexed_of_ofEntries h
  unfold Engine.Accepted
  rwa [← hindexed.entries_eq] at hindexed

namespace Reader

variable {engine : Engine Unit}

theorem setting_accepted (h : engine.Accepted) : Setting engine engine.host fun _ => True :=
  ⟨engine.host_answers, h, invariant_true engine⟩

/-! ### The equations of reading -/

/-- The operators after an expression. -/
def more (engine : Engine Unit) (stop : Terminator) (lhs : Expr) (rest : List Token) :
    Id (Expr × List Token) :=
  operators engine engine.host (expression engine engine.host) stop (rest.length + 1) lhs rest

/-- Nested expressions are read as if there were no bound on them. -/
theorem nested_expression (h : engine.Accepted) (fuel : Nat) :
    Nested (fun _ => True) fuel (expression engine engine.host)
      (expressionWithin engine engine.host fuel) := by
  intro stop rest hlt
  exact expressionWithin_settles (setting_accepted h) stop (Nat.lt_succ_self _) hlt

theorem nested_self (h : engine.Accepted) (bound : Nat) :
    Nested (fun _ => True) bound (expression engine engine.host)
      (expression engine engine.host) := by
  intro stop rest _
  exact expression_settles (setting_accepted h) stop rest

/-- An expression whose start is read, with the operators after it. -/
def completed (engine : Engine Unit) (stop : Terminator) (lhs : Expr) (rest : List Token) :
    Id (Option Expr × List Token) := do
  let (e, rest) ← more engine stop lhs rest
  pure (some e, rest)

/-- More fuel than tokens is as good as any other. -/
theorem operators_eq_more (h : engine.Accepted) {stop : Terminator} {fuel : Nat} {lhs : Expr}
    {rest : List Token} (hfuel : rest.length < fuel) :
    operators engine engine.host (expression engine engine.host) stop fuel lhs rest =
      more engine stop lhs rest := by
  exact (operators_settles (setting_accepted h) (nested_self h fuel) stop trivial hfuel hfuel
    (Nat.lt_succ_self _)).1

/-- Blanks in front of an operator are passed. -/
theorem more_skipSpace (h : engine.Accepted) (stop : Terminator) (lhs : Expr)
    (rest : List Token) :
    more engine stop lhs (skipSpace rest) = more engine stop lhs rest := by
  have hlt : (skipSpace rest).length < rest.length + 1 :=
    Nat.lt_succ_of_le (skipSpace_suffix rest).length_le
  rw [← operators_eq_more h hlt, more, operators, operators]
  simp only [skipSpace_skipSpace]

/-- An expression is a primary one and the operators after it. -/
theorem expression_eq (h : engine.Accepted) (stop : Terminator) (rest : List Token) :
    expression engine engine.host stop rest =
      match primary engine engine.host (expression engine engine.host) stop rest with
      | (none, rest) => pure (none, rest)
      | (some lhs, rest) => completed engine stop lhs rest := by
  have s := setting_accepted h
  have hinner := nested_expression h rest.length
  have hprimary : primary engine engine.host (expressionWithin engine engine.host rest.length)
      stop rest = primary engine engine.host (expression engine engine.host) stop rest :=
    (primary_settles s hinner stop (Nat.le_refl rest.length)).1.symm
  have houtcome := (primary_settles s hinner stop (Nat.le_refl rest.length)).2
  rw [hprimary] at houtcome
  show expressionWithin engine engine.host (rest.length + 1) stop rest = _
  rw [expressionWithin, hprimary]
  generalize primary engine engine.host (expression engine engine.host) stop rest = result
    at houtcome
  obtain ⟨_ | lhs, after⟩ := result
  · rfl
  · obtain ⟨-, hpast⟩ := houtcome
    have hsame : operators engine engine.host (expressionWithin engine engine.host rest.length)
        stop (after.length + 1) lhs after = more engine stop lhs after :=
      (operators_settles s hinner stop trivial hpast.2 (Nat.lt_succ_self _)
        (Nat.lt_succ_self _)).1.symm
    exact congrArg (fun found : Expr × List Token => (some found.1, found.2)) hsame

/-- Blanks in front of an expression are passed. -/
theorem expression_skipSpace (h : engine.Accepted) (stop : Terminator) (rest : List Token) :
    expression engine engine.host stop (skipSpace rest) =
      expression engine engine.host stop rest := by
  rw [expression_eq h, expression_eq h]
  unfold primary
  simp only [skipSpace_skipSpace]

/-! ### Where an expression may start and where it ends -/

/-- Every expression ends here. -/
def Ends (engine : Engine Unit) (rest : List Token) : Prop :=
  ∀ t, rest.head? = some t → isBoundary t = true ∨ engine.dictionary.isCloser t = true

/-- An expression or an operator may start with the token. -/
structure Opens (engine : Engine Unit) (t : Token) : Prop where
  spacing : isSpacing t = false
  boundary : isBoundary t = false
  closer : engine.dictionary.isCloser t = false

/-- What closes an expression is the closing trigger of some entry. -/
def Proper (engine : Engine Unit) (stop : Terminator) : Prop :=
  ∀ close, stop.close = some close → ∃ c cs, close = c :: cs ∧ engine.dictionary.isCloser c = true

theorem proper_default : Proper engine {} := by
  rintro close ⟨⟩

theorem Proper.withMinPrec {stop : Terminator} (h : Proper engine stop) (minPrec : Nat) :
    Proper engine (stop.withMinPrec minPrec) := h

theorem ends_nil : Ends engine [] := by
  rintro t ⟨⟩

theorem atTerminator_of_ends {stop : Terminator} {rest : List Token} (h : Ends engine rest) :
    atTerminator engine.dictionary stop rest = true := by
  cases rest with
  | nil => rfl
  | cons t rest =>
    rw [atTerminator, Bool.or_assoc, Bool.or_eq_true]
    right
    rw [Bool.or_eq_true]
    exact h t rfl

theorem atTerminator_of_opens {stop : Terminator} (hstop : Proper engine stop) {t : Token}
    (ht : Opens engine t) (rest : List Token) :
    atTerminator engine.dictionary stop (t :: rest) = false := by
  rw [atTerminator, ht.boundary, ht.closer, Bool.or_false, Bool.or_false]
  cases hclose : stop.close with
  | none => rfl
  | some close =>
    obtain ⟨c, cs, rfl, hc⟩ := hstop close hclose
    have hne : t ≠ c := by
      rintro rfl
      rw [ht.closer] at hc
      cases hc
    cases cs <;> simp [matchTokens, hne]

/-- With the bound an expression ends here. -/
def Halts (engine : Engine Unit) (bound : Nat) (rest : List Token) : Prop :=
  skipSpace rest = rest ∧
    (Ends engine rest ∨
      (engine.dictionary.candidates rest [.infixOp, .postfixOp] ≠ [] ∧
        ∀ found ∈ engine.dictionary.candidates rest [.infixOp, .postfixOp],
          found.entry.precedence < bound))

theorem halts_nil (bound : Nat) : Halts engine bound [] := ⟨rfl, Or.inl ends_nil⟩

/-! ### The operators after an expression -/

theorem more_of_halts {stop : Terminator} {lhs : Expr} {rest : List Token}
    (h : Halts engine stop.minPrec rest) : more engine stop lhs rest = pure (lhs, rest) := by
  obtain ⟨hskip, hends⟩ := h
  rw [more, operators]
  simp only [hskip]
  by_cases hterminator : atTerminator engine.dictionary stop rest = true
  · rw [if_pos hterminator]
  · rw [if_neg hterminator]
    rcases hends with hends | ⟨hsome, hloose⟩
    · exact absurd (atTerminator_of_ends hends) hterminator
    · have hempty : (engine.dictionary.candidates rest [.infixOp, .postfixOp]).isEmpty = false := by
        simpa using hsome
      have hnone : (engine.dictionary.candidates rest [.infixOp, .postfixOp]).filter
          (fun candidate => stop.minPrec ≤ candidate.entry.precedence) = [] := by
        rw [List.filter_eq_nil_iff]
        intro found hfound
        have := hloose found hfound
        simp
        omega
      simp only [hempty, hnone]
      rfl

theorem build_eq (head : String) (ops : List Expr) :
    build engine engine.host head ops = pure (engine.call head ops) :=
  Engine.function_eq_pure engine head ops

theorem errorAt_eq (code : ErrorCode) (argument : Option String) (start rest : List Token) :
    errorAt engine.host code argument start rest =
      pure (Tree.errorCall code argument (some (Latex.ofTokens (between start rest)))) := by
  -- the engine's own host does nothing where there is no source
  have herror := Tree.error_eq_pure (m := Id) code argument
    (some (Latex.ofTokens (between start rest)))
  unfold errorAt
  dsimp only
  split <;> exact herror

/-- The engine's own host does nothing where a match has no tokens. -/
theorem firstAccepted_cons (inner : Terminator → List Token → Id (Option Expr × List Token))
    (lhs : Option Expr) (stop : Terminator) (start : List Token) (found : TriggerMatch Unit)
    (others : List (TriggerMatch Unit)) :
    firstAccepted engine engine.host inner lhs stop start (found :: others) =
      (accept engine engine.host inner lhs stop start found >>= fun
        | some result => pure (some result)
        | none => firstAccepted engine engine.host inner lhs stop start others) := by
  rw [firstAccepted]
  refine bind_congr fun result => ?_
  cases result with
  | some result => rfl
  | none =>
    dsimp only
    split <;> rfl

theorem orMissing_eq (operand : Option Expr) :
    orMissing engine.host operand = pure (operand.getD (Tree.errorCall .missing none none)) := by
  cases operand with
  | some e => rfl
  | none => exact Tree.error_eq_pure (m := Id) .missing none none

theorem accept_eq_byKind {inner : Terminator → List Token → Id (Option Expr × List Token)}
    {lhs : Option Expr} {stop : Terminator} {start : List Token} {found : TriggerMatch Unit}
    (hrule : found.entry.isCustom = false) :
    accept engine engine.host inner lhs stop start found =
      byKind engine engine.host inner found.entry lhs stop start found.after := by
  cases hparse : found.entry.parse with
  | custom handler =>
    rw [Entry.isCustom, hparse] at hrule
    cases hrule
  | byKind => simp only [accept, hparse]
  | synonym target => simp only [accept, hparse]

/-- What a script ends with is what its notation is read as. -/
theorem accept_of_script {host : Host Id Unit}
    {inner : Terminator → List Token → Id (Option Expr × List Token)} {lhs : Option Expr}
    {stop : Terminator} {start : List Token} (found : TriggerMatch Unit) {handler : Handler Unit}
    (hparse : found.entry.parse = .custom handler) {result : Option Expr} {rest : List Token}
    (hrun : runScript engine host inner (handler lhs stop) [] found.after = pure (result, rest)) :
    accept engine host inner lhs stop start found = pure (result.map fun e => (e, rest)) := by
  simp only [accept, hparse, hrun, pure_bind]

/-- What is accepted is read from one of the matches. -/
theorem exists_accepted {inner : Terminator → List Token → Id (Option Expr × List Token)}
    {lhs : Option Expr} {stop : Terminator} {start : List Token}
    {found : List (TriggerMatch Unit)} {result : Expr × List Token}
    (h : firstAccepted engine engine.host inner lhs stop start found = pure (some result)) :
    ∃ one ∈ found, accept engine engine.host inner lhs stop start one = pure (some result) := by
  induction found with
  | nil => cases h
  | cons one others ih =>
    rw [firstAccepted_cons] at h
    cases haccept : Id.run (accept engine engine.host inner lhs stop start one) with
    | some result' =>
      have hpure : accept engine engine.host inner lhs stop start one = pure (some result') :=
        haccept
      rw [hpure, pure_bind] at h
      cases h
      exact ⟨one, List.mem_cons_self, hpure⟩
    | none =>
      have hpure : accept engine engine.host inner lhs stop start one = pure none := haccept
      rw [hpure, pure_bind] at h
      obtain ⟨one', hmem, haccept'⟩ := ih h
      exact ⟨one', List.mem_cons_of_mem one hmem, haccept'⟩

/-- One of the operators that start here is accepted: the operators go on behind what it reads. -/
theorem more_of_accepted (h : engine.Accepted) {stop : Terminator} (hstop : Proper engine stop)
    {t : Token} (ht : Opens engine t) {tail : List Token}
    (hfound : engine.dictionary.candidates (t :: tail) [.infixOp, .postfixOp] ≠ []) {lhs e : Expr}
    {rest : List Token}
    (haccept : firstAccepted engine engine.host (expression engine engine.host) (some lhs) stop
      (t :: tail) ((engine.dictionary.candidates (t :: tail) [.infixOp, .postfixOp]).filter
        fun candidate => stop.minPrec ≤ candidate.entry.precedence) = pure (some (e, rest))) :
    more engine stop lhs (t :: tail) = more engine stop e rest := by
  have s := setting_accepted h
  have hskip : skipSpace (t :: tail) = t :: tail := skipSpace_cons_of_not tail ht.spacing
  have hlt : rest.length < (t :: tail).length := by
    have hmatches : ∀ found ∈ (engine.dictionary.candidates (t :: tail)
        [.infixOp, .postfixOp]).filter (fun candidate => stop.minPrec ≤ candidate.entry.precedence),
        found.entry ∈ engine.dictionary.entries ∧ Past (t :: tail) found.after := by
      intro found hmem
      have hcandidate := h.candidate (List.mem_filter.mp hmem).1
      exact ⟨hcandidate.1, hcandidate.2.2⟩
    have hlhs : ∀ x, some lhs = some x → True := fun _ _ => trivial
    have houtcome :=
      (firstAccepted_settles s (nested_self h _) hlhs stop (Nat.le_refl _) hmatches).2
    rw [haccept] at houtcome
    exact (houtcome _ rfl).2.2
  have hempty : (engine.dictionary.candidates (t :: tail) [.infixOp, .postfixOp]).isEmpty =
      false := by
    simpa using hfound
  rw [more, operators]
  simp only [hskip, atTerminator_of_opens hstop ht, hempty, Bool.false_eq_true, if_false, haccept,
    pure_bind]
  exact operators_eq_more h hlt

/-- The only operator that starts here binds tightly enough: its right side is read, and the
    operators go on behind it. -/
theorem more_between (h : engine.Accepted) {stop : Terminator} (hstop : Proper engine stop)
    {t : Token} (ht : Opens engine t) {tail : List Token} {found : TriggerMatch Unit}
    (hfound : engine.dictionary.candidates (t :: tail) [.infixOp, .postfixOp] = [found])
    (hkind : found.entry.kind = .infixOp) (hrule : found.entry.isCustom = false) {head : String}
    (hhead : found.entry.head? = some head) (hbound : stop.minPrec ≤ found.entry.precedence)
    {lhs rhs : Expr} {rest : List Token}
    (hrhs : expression engine engine.host (stop.withMinPrec (rightBound found.entry)) found.after =
      pure (some rhs, rest)) :
    more engine stop lhs (t :: tail) = more engine stop (engine.call head [lhs, rhs]) rest := by
  apply more_of_accepted h hstop ht
  · rw [hfound]
    exact List.cons_ne_nil _ _
  · have hfilter : [found].filter
        (fun candidate => stop.minPrec ≤ candidate.entry.precedence) = [found] := by
      simpa using hbound
    rw [hfound, hfilter, firstAccepted_cons, accept_eq_byKind hrule]
    simp only [byKind, hhead, hkind, hrhs, pure_bind, orMissing, build_eq]

/-! ### Primary expressions -/

/-- The only notation that starts here is an operator before its operand. -/
theorem primary_before {stop : Terminator} (hstop : Proper engine stop) {t : Token}
    (ht : Opens engine t) {tail : List Token} {found : TriggerMatch Unit}
    (hfound : engine.dictionary.candidates (t :: tail) [.symbol, .prefixOp, .matchfix] = [found])
    (hkind : found.entry.kind = .prefixOp) (hrule : found.entry.isCustom = false) {head : String}
    (hhead : found.entry.head? = some head) {operand : Expr} {rest : List Token}
    (hoperand : expression engine engine.host
      (stop.withMinPrec (boundAbove found.entry.precedence)) found.after =
        pure (some operand, rest)) :
    primary engine engine.host (expression engine engine.host) stop (t :: tail) =
      pure (some (engine.call head [operand]), rest) := by
  have hskip : skipSpace (t :: tail) = t :: tail := skipSpace_cons_of_not tail ht.spacing
  have haccept : firstAccepted engine engine.host (expression engine engine.host) none stop
      (t :: tail) [found] = pure (some (engine.call head [operand], rest)) := by
    rw [firstAccepted_cons, accept_eq_byKind hrule]
    simp only [byKind, hhead, hkind, hoperand, pure_bind, orMissing, build_eq]
  rw [primary]
  simp only [hskip, atTerminator_of_opens hstop ht, hfound, haccept, Bool.false_eq_true, if_false,
    pure_bind]

/-- What a call around a body has for operands. -/
def contents (head : String) (body : Expr) : List Expr :=
  if head != "Delimiter" && body.hasHead "Sequence" then body.ops else [body]

/-- The only notation that starts here is a pair of triggers, with an expression between them or
    with nothing. -/
theorem primary_matchfix {stop : Terminator} (hstop : Proper engine stop) {t : Token}
    (ht : Opens engine t) {tail : List Token} {found : TriggerMatch Unit}
    (hfound : engine.dictionary.candidates (t :: tail) [.symbol, .prefixOp, .matchfix] = [found])
    (hkind : found.entry.kind = .matchfix) (hrule : found.entry.isCustom = false) {head : String}
    (hhead : found.entry.head? = some head) {close : Trigger}
    (hclose : found.entry.close = some close) {body : Option Expr} {inside rest : List Token}
    (hbody : expression engine engine.host { minPrec := 0, close := some close.tokens }
      found.after = pure (body, inside))
    (hend : matchTokens close.tokens (skipSpace inside) = some rest) :
    primary engine engine.host (expression engine engine.host) stop (t :: tail) =
      pure (some (engine.call head (body.elim [] (contents head))), rest) := by
  have hskip : skipSpace (t :: tail) = t :: tail := skipSpace_cons_of_not tail ht.spacing
  have haccept : firstAccepted engine engine.host (expression engine engine.host) none stop
      (t :: tail) [found] =
        pure (some (engine.call head (body.elim [] (contents head)), rest)) := by
    rw [firstAccepted_cons, accept_eq_byKind hrule]
    simp only [byKind, hhead, hkind, matchfix, hclose, Option.map_some, Option.getD_some, hbody,
      pure_bind, hend, build_eq]
    cases body <;> rfl
  rw [primary]
  simp only [hskip, atTerminator_of_opens hstop ht, hfound, haccept, Bool.false_eq_true, if_false,
    pure_bind]

/-- The only notation that starts here is a pair of triggers around an expression. -/
theorem primary_around {stop : Terminator} (hstop : Proper engine stop) {t : Token}
    (ht : Opens engine t) {tail : List Token} {found : TriggerMatch Unit}
    (hfound : engine.dictionary.candidates (t :: tail) [.symbol, .prefixOp, .matchfix] = [found])
    (hkind : found.entry.kind = .matchfix) (hrule : found.entry.isCustom = false) {head : String}
    (hhead : found.entry.head? = some head) {close : Trigger}
    (hclose : found.entry.close = some close) {body : Expr} {inside rest : List Token}
    (hbody : expression engine engine.host { minPrec := 0, close := some close.tokens }
      found.after = pure (some body, inside))
    (hend : matchTokens close.tokens (skipSpace inside) = some rest) :
    primary engine engine.host (expression engine engine.host) stop (t :: tail) =
      pure (some (engine.call head (contents head body)), rest) :=
  primary_matchfix hstop ht hfound hkind hrule hhead hclose hbody hend

/-- Where every expression ends none starts. -/
theorem expression_of_ends (h : engine.Accepted) (stop : Terminator) {rest : List Token}
    (hends : Ends engine (skipSpace rest)) :
    expression engine engine.host stop rest = pure (none, skipSpace rest) := by
  rw [expression_eq h, primary]
  simp only [atTerminator_of_ends hends, if_true]
  rfl

/-- No notation starts here: the token speaks for itself. -/
theorem primary_unclaimed {stop : Terminator} (hstop : Proper engine stop) {t : Token}
    (ht : Opens engine t) {tail : List Token}
    (hfound : engine.dictionary.candidates (t :: tail) [.symbol, .prefixOp, .matchfix] = [])
    {e : Expr} {rest : List Token}
    (hunclaimed : unclaimed engine engine.host (expression engine engine.host) t (t :: tail) =
      pure (some (e, rest))) :
    primary engine engine.host (expression engine engine.host) stop (t :: tail) =
      pure (some e, rest) := by
  have hskip : skipSpace (t :: tail) = t :: tail := skipSpace_cons_of_not tail ht.spacing
  rw [primary]
  simp only [hskip, atTerminator_of_opens hstop ht, hfound, firstAccepted, hunclaimed,
    Bool.false_eq_true, if_false, pure_bind]

end Reader

end Formula
