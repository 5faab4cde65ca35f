import Formula.Proofs.Standard.Scripts

/-!
  **Reading ends, and it always moves on.**

  The bounds on the steps of the reader are there for the definitions only: no reading uses one
  up.  Nor does a reading ever ask for a token behind the last one, or for the source of an error
  up to a place in front of its start.  To say so, a reading is done by a host that gives up for
  good as soon as it is told of the one or the other.  It still gets every answer that the plain
  reading gets, so nothing is ever read forever or out of range.  An expression that was read has
  taken at least one token, and where there is none the reader has passed over blanks only; it
  reads whatever tokens there are to the last one.
-/

namespace Formula

/-- The host that never answers again once a bound is used up or tokens are asked for that are not
    there. -/
def Engine.strictHost (engine : Engine Unit) : Host Option Unit where
  fresh := some ()
  domain e := some (engine.domain e)
  compatible e l := some (engine.isCompatible e (.literal l))
  exhausted := none
  outOfRange := none

theorem Engine.strictHost_answers (engine : Engine Unit) :
    engine.strictHost.Answers engine where
  fresh := rfl
  domain _ := rfl
  compatible _ _ := rfl

namespace Reader

/-- A reading that started at position `i` ends as it should: behind it with an expression, and
    otherwise with blanks only between the two. -/
def EndsWell (tokens : List Token) (i : Nat) : Option Expr × List Token → Prop
  | (some _, rest) => ∃ j, i < j ∧ j ≤ tokens.length ∧ rest = tokens.drop j
  | (none, rest) =>
    ∃ j, i ≤ j ∧ j ≤ tokens.length ∧ rest = tokens.drop j ∧
      ∀ k, i ≤ k → k < j → ∃ t, tokens[k]? = some t ∧ isSpacing t = true

/-- Nothing has to be known of the expressions for a reading to end. -/
theorem invariant_true (engine : Engine Unit) : Invariant engine fun _ => True where
  number _ := trivial
  symbol _ := trivial
  error _ _ _ := trivial
  elements _ _ _ _ := trivial
  build _ _ _ _ := trivial
  script := by
    intro entry _ handler _ lhs stop _
    generalize handler lhs stop = script
    induction script with
    | done result => intro _ _; trivial
    | expression stop next ih => intro result _; exact ih result
    | tabular next ih => intro e _; exact ih e
    | root next ih => intro e _; exact ih e
    | skipSpace next ih => exact ih
    | peek next ih => intro token; exact ih token
    | checkpoint next ih => exact ih
    | rewind place next ih => exact ih
    | build head ops next ih => exact ih _
    | domain e next ih => exact ih _
    | compatible e l next ih => exact ih _

theorem setting_strict {engine : Engine Unit} {entries : List (Entry Unit)}
    (h : Dictionary.ofEntries entries = .ok engine.dictionary) :
    Setting engine engine.strictHost fun _ => True where
  answers := engine.strictHost_answers
  indexed := by
    have hindexed := Dictionary.indexed_of_ofEntries h
    rwa [← hindexed.entries_eq] at hindexed
  keeps := invariant_true engine

theorem endsWell_of_outcome {Good : Expr → Prop} {tokens : List Token} {i : Nat}
    (hi : i ≤ tokens.length) {result : Option Expr × List Token}
    (h : Outcome Good (tokens.drop i) result) : EndsWell tokens i result := by
  rcases result with ⟨_ | e, rest⟩
  · obtain ⟨gap, hgap, hspacing⟩ := h
    have hlen : tokens.length - i = gap.length + rest.length := by
      simpa using congrArg List.length hgap
    have hdrop : tokens.drop (i + gap.length) = rest := by
      rw [← List.drop_drop, hgap, List.drop_left]
    refine ⟨i + gap.length, by omega, by omega, hdrop.symm, ?_⟩
    intro k hik hkj
    have hk : k - i < gap.length := by omega
    have hget : tokens[k]? = some gap[k - i] := by
      have : (tokens.drop i)[k - i]? = some gap[k - i] := by
        rw [hgap, List.getElem?_append_left hk, List.getElem?_eq_getElem hk]
      rwa [List.getElem?_drop, Nat.add_sub_cancel' hik] at this
    exact ⟨gap[k - i], hget, hspacing _ (List.getElem_mem hk)⟩
  · exact Past.exists_drop hi h.2

/-- **Reading ends and moves on.**  For every accepted dictionary, whatever the options, the
    tokens, the place and the terminator, an expression is read without a bound being used up and
    without a token being asked for that is not there; it ends behind its start, and without an
    expression only blanks are passed.  Reading all that is left ends at the last token, and so
    every list of tokens has an expression. -/
theorem reading_returns {engine : Engine Unit} {entries : List (Entry Unit)}
    (h : Dictionary.ofEntries entries = .ok engine.dictionary) (tokens : List Token) :
    (∀ i ≤ tokens.length, ∀ stop : Terminator, ∃ result,
      expression engine engine.strictHost stop (tokens.drop i) = some result ∧
        Id.run (expression engine engine.host stop (tokens.drop i)) = result ∧
        EndsWell tokens i result) ∧
    (∀ i ≤ tokens.length, ∃ e,
      remainder engine engine.strictHost (tokens.drop i) = some (e, []) ∧
        Id.run (remainder engine engine.host (tokens.drop i)) = (e, [])) ∧
    formula engine engine.strictHost tokens = some (engine.parseTokens tokens) := by
  have s := setting_strict h
  refine ⟨?_, ?_, ?_⟩
  · intro i hi stop
    obtain ⟨hsame, houtcome⟩ := expression_settles s stop (tokens.drop i)
    exact ⟨_, hsame, rfl, endsWell_of_outcome hi houtcome⟩
  · intro i _
    obtain ⟨hsame, -, hend⟩ := remainder_settles s (tokens.drop i)
    have hpair : Id.run (remainder engine engine.host (tokens.drop i)) =
        ((Id.run (remainder engine engine.host (tokens.drop i))).1, []) := by
      rw [← hend]
    refine ⟨_, ?_, hpair⟩
    rw [hsame, ← hpair]
    rfl
  · exact (formula_settles s tokens).1

/-- The standard engine reads `a+b`, and nothing from its end on. -/
theorem reading_returns_standard :
    Dictionary.ofEntries standardEntries = .ok (Engine.standard : Engine Unit).dictionary ∧
    EndsWell (tokenize "a+b") 3
      (Id.run (expression Engine.standard Engine.standard.host {} ((tokenize "a+b").drop 3))) ∧
    formula Engine.standard Engine.standard.strictHost (tokenize "a+b") =
      some (Engine.standard.parseTokens (tokenize "a+b")) := by
  have hread := reading_returns Engine.standard_accepted (tokenize "a+b")
  refine ⟨Engine.standard_accepted, ?_, hread.2.2⟩
  obtain ⟨result, -, rfl, hends⟩ := hread.1 3 (by decide +kernel) {}
  exact hends

end Reader

end Formula
