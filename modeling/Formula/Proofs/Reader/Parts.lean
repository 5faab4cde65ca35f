import Formula.Proofs.Reader.Climb

/-!
  **Whole formulas without bounds.**

  A formula is read part by part: an expression, or an error for what stands where no expression
  starts.  Each part takes a token, so the bound on the rounds is never met.  This module gives the
  steps of the loop.
-/

namespace Formula

namespace Reader

variable {engine : Engine Unit}

/-- The parts of a formula from here on, with those already read. -/
def partsFrom (engine : Engine Unit) (found : List Expr) (rest : List Token) :
    Id (List Expr × List Token) :=
  parts engine engine.host (expression engine engine.host) (rest.length + 1) found rest

/-- More fuel than tokens is as good as any other. -/
theorem parts_eq_partsFrom (h : engine.Accepted) {fuel : Nat} {found : List Expr}
    {rest : List Token} (hfuel : rest.length < fuel) :
    parts engine engine.host (expression engine engine.host) fuel found rest =
      partsFrom engine found rest := by
  exact (parts_settles (setting_accepted h) (nested_self h fuel) (fun _ _ => trivial) hfuel hfuel
    (Nat.lt_succ_self _)).1

/-- Blanks in front of a part are passed. -/
theorem partsFrom_skipSpace (h : engine.Accepted) (found : List Expr) (rest : List Token) :
    partsFrom engine found (skipSpace rest) = partsFrom engine found rest := by
  have hlt : (skipSpace rest).length < rest.length + 1 :=
    Nat.lt_succ_of_le (skipSpace_suffix rest).length_le
  rw [← parts_eq_partsFrom h hlt, partsFrom, parts, parts]
  simp only [skipSpace_skipSpace]

/-- Blanks are no part. -/
theorem partsFrom_end {rest : List Token} (hend : skipSpace rest = []) (found : List Expr) :
    partsFrom engine found rest = pure (found, []) := by
  rw [partsFrom, parts]
  simp only [hend, List.isEmpty_nil, if_true]

/-- The formula goes on behind an expression. -/
theorem partsFrom_expression (h : engine.Accepted) {rest after : List Token} {e : Expr}
    (hread : expression engine engine.host {} rest = pure (some e, after)) (found : List Expr) :
    partsFrom engine found rest = partsFrom engine (found ++ [e]) after := by
  have hstart : expression engine engine.host {} (skipSpace rest) = pure (some e, after) := by
    rw [expression_skipSpace h, hread]
  have hpast : Past (skipSpace rest) after := by
    have houtcome := (expression_settles (setting_accepted h) {} (skipSpace rest)).2
    rw [hstart] at houtcome
    exact houtcome.2
  have hshort := (skipSpace_suffix rest).length_le
  have hlt : after.length < rest.length := Nat.lt_of_lt_of_le hpast.2 hshort
  have hne : (skipSpace rest).isEmpty = false := by
    cases hskip : skipSpace rest with
    | nil =>
      rw [hskip] at hpast
      exact absurd hpast.2 (Nat.not_lt_zero _)
    | cons t tail => rfl
  rw [partsFrom, parts]
  simp only [hne, Bool.false_eq_true, if_false, hstart, pure_bind]
  exact parts_eq_partsFrom h hlt

/-- The formula goes on behind what makes no expression. -/
theorem partsFrom_leftover (h : engine.Accepted) {t : Token} (ht : isSpacing t = false)
    {tail after : List Token} {e : Expr}
    (hnone : expression engine engine.host {} (t :: tail) = pure (none, t :: tail))
    (hleftover : leftover engine engine.host (t :: tail) = pure (e, after)) (found : List Expr) :
    partsFrom engine found (t :: tail) = partsFrom engine (found ++ [e]) after := by
  have hpast : Past (t :: tail) after := by
    have hleft := (leftover_settles (setting_accepted h) (List.cons_ne_nil t tail)).2
    rw [hleftover] at hleft
    exact hleft.2
  rw [partsFrom, parts]
  simp only [skipSpace_cons_of_not tail ht, List.isEmpty_cons, Bool.false_eq_true, if_false, hnone,
    hleftover, pure_bind]
  exact parts_eq_partsFrom h hpast.2

/-- The parts that were read stay in front of those that follow. -/
theorem parts_append (engine : Engine Unit)
    (inner : Terminator → List Token → Id (Option Expr × List Token)) (fuel : Nat)
    (found : List Expr) (rest : List Token) :
    Id.run (parts engine engine.host inner fuel found rest) =
      (found ++ (Id.run (parts engine engine.host inner fuel [] rest)).1,
        (Id.run (parts engine engine.host inner fuel [] rest)).2) := by
  induction fuel generalizing found rest with
  | zero => exact congrArg (·, rest) (List.append_nil found).symm
  | succ fuel ih =>
    have hsnoc : ∀ (e : Expr) (rest : List Token),
        Id.run (parts engine engine.host inner fuel (found ++ [e]) rest) =
          (found ++ (Id.run (parts engine engine.host inner fuel [e] rest)).1,
            (Id.run (parts engine engine.host inner fuel [e] rest)).2) := by
      intro e rest
      rw [ih (found ++ [e]) rest, ih [e] rest, List.append_assoc]
    rw [parts, parts]
    dsimp only
    split
    · exact congrArg (·, skipSpace rest) (List.append_nil found).symm
    · generalize inner {} (skipSpace rest) = result
      obtain ⟨_ | e, after⟩ := result
      · exact hsnoc _ _
      · exact hsnoc e after

theorem exists_parts (engine : Engine Unit)
    (inner : Terminator → List Token → Id (Option Expr × List Token)) (fuel : Nat)
    (found : List Expr) (rest : List Token) :
    ∃ more, (Id.run (parts engine engine.host inner fuel found rest)).1 = found ++ more :=
  ⟨_, congrArg Prod.fst (parts_append engine inner fuel found rest)⟩

/-- The parts of a formula are read as if there were no bound on them. -/
theorem formulaParts_eq (h : engine.Accepted) (tokens : List Token) :
    Id.run (formulaParts engine engine.host tokens) = (Id.run (partsFrom engine [] tokens)).1 := by
  have hsame : parts engine engine.host
      (expressionWithin engine engine.host (tokens.length + 1)) (tokens.length + 1) [] tokens =
        partsFrom engine [] tokens :=
    ((parts_settles (setting_accepted h) (nested_expression h _) (fun _ _ => trivial)
      (Nat.lt_succ_self _) (Nat.lt_succ_self _) (Nat.lt_succ_self _)).1).symm
  unfold formulaParts
  rw [hsame]
  rfl

/-- A formula is what its parts are combined to. -/
theorem parseTokens_parts (h : engine.Accepted) (tokens : List Token) :
    engine.parseTokens tokens =
      Id.run (combine engine engine.host (Id.run (partsFrom engine [] tokens)).1) := by
  have hsame : parts engine engine.host
      (expressionWithin engine engine.host (tokens.length + 1)) (tokens.length + 1) [] tokens =
        parts engine engine.host (expression engine engine.host) (tokens.length + 1) [] tokens :=
    ((parts_settles (setting_accepted h) (nested_expression h _) (fun _ _ => trivial)
      (Nat.lt_succ_self _) (Nat.lt_succ_self _) (Nat.lt_succ_self _)).1).symm
  unfold Engine.parseTokens formula remainder root
  rw [hsame]
  rfl

/-- Tokens that are one expression up to their end are read as that expression. -/
theorem parseTokens_of_expression (h : engine.Accepted) {tokens : List Token} {e : Expr}
    (hread : expression engine engine.host {} tokens = pure (some e, [])) :
    engine.parseTokens tokens = e := by
  rw [parseTokens_parts h, partsFrom_expression h hread, partsFrom_end rfl]
  rfl

/-- What is read first stays in front. -/
theorem exists_parseTokens_cons (h : engine.Accepted) {tokens after : List Token} {e : Expr}
    (hread : expression engine engine.host {} tokens = pure (some e, after)) :
    ∃ more, engine.parseTokens tokens = Id.run (combine engine engine.host (e :: more)) := by
  obtain ⟨more, hmore⟩ := exists_parts engine (expression engine engine.host)
    (after.length + 1) [e] after
  refine ⟨more, ?_⟩
  rw [parseTokens_parts h, partsFrom_expression h hread, List.nil_append, partsFrom, hmore]
  rfl

end Reader

end Formula
