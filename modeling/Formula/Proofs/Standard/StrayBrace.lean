import Formula.Proofs.Reader.Nesting
import Formula.Proofs.Reader.NormalForm
import Formula.Proofs.Standard.Operators

/-!
  **A closing brace behind other tokens.**

  Nothing in front of a closing brace is read differently because of it, since it ends an expression
  as the end of the formula does.  So braces around a formula leave no trace in what is read.  A
  closing brace without an opening one is an error of its own, and reading starts afresh behind it:
  what is read there depends on the tokens from there on only.
-/

namespace Formula

namespace Reader

variable {engine : Engine Unit}

/-- The braces in the standard triggers match. -/
theorem bracesMatch_standard : BracesMatch (Engine.standard : Engine Unit) := by
  have hentries : (Engine.standard : Engine Unit).dictionary.entries = standardEntries :=
    (Dictionary.indexed_of_ofEntries Engine.standard_accepted).entries_eq
  have htriggers : ∀ entry ∈ (standardEntries : List (Entry Unit)),
      entry.matchedTriggers.all (fun trigger => Nests 0 trigger.tokens) = true ∧
        entry.close.all (fun close => Nests 0 close.tokens) = true := by
    have htable : (standardEntries : List (Entry Unit)).all (fun entry =>
        entry.matchedTriggers.all (fun trigger => Nests 0 trigger.tokens) &&
          entry.close.all (fun close => Nests 0 close.tokens)) = true := by
      decide +kernel
    intro entry hentry
    rw [← Bool.and_eq_true]
    exact List.all_eq_true.mp htable entry hentry
  constructor
  · intro entry hentry trigger htrigger
    exact List.all_eq_true.mp (htriggers entry (hentries ▸ hentry)).1 trigger htrigger
  · intro entry hentry close hclose
    have hall := (htriggers entry (hentries ▸ hentry)).2
    rw [hclose] at hall
    exact hall

/-- On the standard engine tokens are read in lockstep in front of a closing brace and at the
    end. -/
theorem lockstep_bracing_standard (after : List Token) :
    (bracing after).Lockstep (Engine.standard : Engine Unit) := by
  refine lockstep_bracing Engine.accepted_standard bracesMatch_standard ?_
  rw [Dictionary.indexed_standard.entries_eq]
  exact scripts_standardEntries

theorem aligned_bracing {s : List Token} (hbalanced : Balanced s) (hplain : ∀ t ∈ s, Unfenced t)
    (after : List Token) : (bracing after).Aligned 0 0 s (s ++ .groupEnd :: after) :=
  ⟨rfl, ⟨0, balanced_iff_nests.mp hbalanced⟩, hplain⟩

/-! ### Braces around a formula -/

theorem free_groupStart : (Engine.standard : Engine Unit).Free .groupStart :=
  Engine.free_of_avoids Dictionary.indexed_standard
    (@avoids_of_kind (· == .groupStart) (by decide +kernel) .groupStart rfl)

/-- A group whose content is read up to its closing brace is its content. -/
theorem primary_group (hfree : engine.Free .groupStart) {stop : Terminator}
    (hstop : Proper engine stop) {inside after : List Token} {e : Expr}
    (hbody : expression engine engine.host {} inside = pure (some e, .groupEnd :: after)) :
    primary engine engine.host (expression engine engine.host) stop (.groupStart :: inside) =
      pure (some e, after) := by
  have hskip : skipSpace (.groupEnd :: after) = .groupEnd :: after :=
    skipSpace_cons_of_not after rfl
  have hnext : nextIs (· == .groupEnd) (.groupEnd :: after) = true := rfl
  have hgroup : group engine engine.host (expression engine engine.host) (.groupStart :: inside) =
      pure (e, after) := by
    simp only [group, List.drop_one, List.tail_cons, hbody, pure_bind, hskip, hnext, if_true]
  refine primary_unclaimed hstop ⟨rfl, rfl, hfree.closer⟩
    (Dictionary.candidates_of_no_readings hfree.readings inside _) ?_
  simp only [unclaimed, Token.isCommand, Bool.false_eq_true, if_false, hgroup, map_pure]

/-- **Braces around a formula leave no trace.**  If tokens whose braces match, with no `\left`,
    `\right`, `\begin` or `\end` among them, are one expression up to their end, then between braces
    they are read as that expression, with the same sources in its errors. -/
theorem parseTokens_group {s : List Token} (hbalanced : Balanced s) (hplain : ∀ t ∈ s, Unfenced t)
    {e : Expr}
    (hread : Id.run (expression Engine.standard Engine.standard.host {} s) = (some e, [])) :
    Engine.standard.parseTokens ([.groupStart] ++ s ++ [.groupEnd]) = e := by
  have haccepted := Engine.accepted_standard
  have hbraced := (Correspondence.expression_agrees (lockstep_bracing_standard []) haccepted
    (s.length + 1)).read haccepted Correspondence.stops_default
    (aligned_bracing hbalanced hplain []) (Nat.lt_succ_self _)
  have hpure : expression Engine.standard Engine.standard.host {} s = pure (some e, []) := hread
  rw [hpure] at hbraced
  -- in front of the closing brace the expression is the same, and the brace is what is left
  have hbody : expression Engine.standard Engine.standard.host {} (s ++ [.groupEnd]) =
      pure (some e, [.groupEnd]) := by
    generalize expression Engine.standard Engine.standard.host {} (s ++ [.groupEnd]) = x
      at hbraced ⊢
    obtain ⟨e', rest⟩ := x
    obtain ⟨⟨he, hrest, -⟩, -⟩ := hbraced
    cases he with
    | some he =>
      cases he
      obtain rfl : rest = [.groupEnd] := hrest.1
      rfl
  apply parseTokens_of_expression haccepted
  rw [List.append_assoc, List.singleton_append,
    expression_of_primary haccepted (primary_group free_groupStart proper_default hbody), completed,
    more_of_halts (halts_nil _)]
  rfl

/-- In `(\foo{x}` the parenthesis is not closed, and its error shows the braces and nothing of
    those around them. -/
theorem parseTokens_group_unclosed :
    Balanced (tokenize "(\\foo\x7bx\x7d") ∧ (∀ t ∈ tokenize "(\\foo\x7bx\x7d", Unfenced t) ∧
      ∃ e, Id.run (expression Engine.standard Engine.standard.host {}
          (tokenize "(\\foo\x7bx\x7d")) = (some e, []) ∧
        (e == Tree.errorCall .expectedClosingDelimiter none (some "(\\foo\x7bx\x7d")) = true ∧
        Engine.standard.parseTokens
          ([.groupStart] ++ tokenize "(\\foo\x7bx\x7d" ++ [.groupEnd]) = e := by
  have hbalanced : Balanced (tokenize "(\\foo\x7bx\x7d") := by decide +kernel
  have hplain : ∀ t ∈ tokenize "(\\foo\x7bx\x7d", Unfenced t := by decide +kernel
  have hread : (Id.run (expression Engine.standard Engine.standard.host {}
        (tokenize "(\\foo\x7bx\x7d"))).1.any
          (· == Tree.errorCall .expectedClosingDelimiter none (some "(\\foo\x7bx\x7d")) = true ∧
      (Id.run (expression Engine.standard Engine.standard.host {}
        (tokenize "(\\foo\x7bx\x7d"))).2 = [] := by
    decide +kernel
  obtain ⟨e, he, hsame⟩ := (Option.any_eq_true _ _).mp hread.1
  have hwhole : Id.run (expression Engine.standard Engine.standard.host {}
      (tokenize "(\\foo\x7bx\x7d")) = (some e, []) :=
    Prod.ext he hread.2
  exact ⟨hbalanced, hplain, e, hwhole, hsame, parseTokens_group hbalanced hplain hwhole⟩

/-! ### A closing brace too many -/

/-- In front of a closing brace the parts are those in front of the end; the brace comes next. -/
theorem partsFrom_bracing (h : engine.Accepted) {after : List Token}
    (L : (bracing after).Lockstep engine) {s s' : List Token}
    (hs : (bracing after).Aligned 0 0 s s') (found : List Expr) :
    partsFrom engine found s' =
      partsFrom engine (Id.run (partsFrom engine found s)).1 (.groupEnd :: after) := by
  induction hn : s.length using Nat.strongRecOn generalizing s s' found with
  | _ n ih =>
    have hskip : (bracing after).Flush 0 0 (skipSpace s) (skipSpace s') := L.flush hs
    have hle := (skipSpace_suffix s).length_le
    rw [← partsFrom_skipSpace h found s, ← partsFrom_skipSpace h found s']
    generalize skipSpace s = place at hskip hle ⊢
    generalize skipSpace s' = place' at hskip ⊢
    cases place with
    | nil =>
      obtain ⟨rfl, -⟩ := hskip.aligned
      have hend : skipSpace ([] : List Token) = [] := rfl
      rw [partsFrom_end hend]
      rfl
    | cons t v =>
      have hread := (Correspondence.expression_agrees L h ((t :: v).length + 1)).read h
        Correspondence.stops_default hskip.aligned (Nat.lt_succ_self _)
      generalize hx : expression engine engine.host {} (t :: v) = x at hread
      generalize hx' : expression engine engine.host {} place' = x' at hread
      obtain ⟨e, rest⟩ := x
      obtain ⟨e', rest'⟩ := x'
      obtain ⟨⟨he, hrest, -⟩, hout, hout'⟩ := hread
      cases he with
      | some he =>
        cases he
        have hlt : rest.length < (t :: v).length := hout.2.2
        dsimp only at hrest
        rw [partsFrom_expression h hx, partsFrom_expression h hx']
        exact ih rest.length (by omega) hrest _ rfl
      | none =>
        obtain rfl : rest = t :: v := hout.eq_of_flush hskip.left
        obtain rfl : rest' = place' := hout'.eq_of_flush hskip.right
        have hspacing : isSpacing t = false := isSpacing_of_flush hskip.left
        obtain ⟨v', rfl⟩ : ∃ v', rest' = t :: v' := ⟨_, hskip.aligned.1⟩
        have hleft := Correspondence.leftover_agrees L hskip hx
        have hpast := (leftover_settles (setting_accepted h) (List.cons_ne_nil t v)).2.2
        generalize hy : leftover engine engine.host (t :: v) = y at hleft hpast
        generalize hy' : leftover engine engine.host (t :: v') = y' at hleft
        obtain ⟨e, rest⟩ := y
        obtain ⟨e', rest'⟩ := y'
        obtain ⟨he, hrest⟩ := hleft
        cases he
        have hlt : rest.length < (t :: v).length := hpast.2
        rw [partsFrom_leftover h hspacing hx hy, partsFrom_leftover h hspacing hx' hy']
        exact ih rest.length (by omega) hrest _ rfl

/-- The closing brace itself is an error, and the parts behind it are read from there on. -/
theorem partsFrom_groupEnd (h : engine.Accepted) (found : List Expr) (after : List Token) :
    partsFrom engine found (.groupEnd :: after) =
      partsFrom engine (found ++ [Tree.errorCall .unexpectedDelimiter none (some "\x7d")])
        after := by
  have hends : Ends engine (.groupEnd :: after) := by
    rintro t ⟨⟩
    exact Or.inl rfl
  have hnone : expression engine engine.host {} (.groupEnd :: after) =
      pure (none, .groupEnd :: after) :=
    expression_of_ends h {} (show Ends engine (skipSpace (.groupEnd :: after)) from hends)
  have hbetween : between (.groupEnd :: after) after = [.groupEnd] := by
    simp [between]
  refine partsFrom_leftover h rfl hnone ?_ found
  simp only [leftover, Token.isCommand, Bool.false_eq_true, if_false, BEq.rfl, Bool.true_or,
    if_true, errorAt_eq, hbetween, pure_bind]
  rfl

/-- **Reading goes on behind a closing brace too many.**  The parts of a formula in which tokens
    whose braces match, and with no `\left`, `\right`, `\begin` or `\end` among them, stand in front
    of one more closing brace are those of the tokens in front, an error for the brace, and those of
    what stands behind it. -/
theorem formulaParts_groupEnd {s : List Token} (hbalanced : Balanced s)
    (hplain : ∀ t ∈ s, Unfenced t) (after : List Token) :
    Id.run (formulaParts Engine.standard Engine.standard.host (s ++ [.groupEnd] ++ after)) =
      Id.run (formulaParts Engine.standard Engine.standard.host s) ++
        [Tree.errorCall .unexpectedDelimiter none (some "\x7d")] ++
        Id.run (formulaParts Engine.standard Engine.standard.host after) := by
  have haccepted := Engine.accepted_of_ofEntries Engine.standard_accepted
  have hscripts : ∀ entry ∈ (Engine.standard : Engine Unit).dictionary.entries, ∀ handler,
      entry.parse = .custom handler → handler ∈ Standard.scripts := by
    rw [(Dictionary.indexed_of_ofEntries Engine.standard_accepted).entries_eq]
    exact scripts_standardEntries
  have hs : (bracing after).Aligned 0 0 s (s ++ .groupEnd :: after) :=
    ⟨rfl, ⟨0, balanced_iff_nests.mp hbalanced⟩, hplain⟩
  have hparts := partsFrom_bracing haccepted
    (lockstep_bracing haccepted bracesMatch_standard hscripts) hs []
  rw [formulaParts_eq haccepted, formulaParts_eq haccepted, formulaParts_eq haccepted,
    List.append_assoc, List.singleton_append, hparts, partsFrom_groupEnd haccepted, partsFrom,
    parts_append]
  rfl

/-- In `{(x}}y` the group that is not closed keeps its error, and the second brace is one too
    many. -/
theorem formulaParts_groupEnd_unclosed :
    Balanced [.groupStart, .char '(', .char 'x', .groupEnd] ∧
    (∀ t ∈ [Token.groupStart, .char '(', .char 'x', .groupEnd], Unfenced t) ∧
    Id.run (formulaParts Engine.standard Engine.standard.host
        ([.groupStart, .char '(', .char 'x', .groupEnd] ++ [.groupEnd] ++ [.char 'y'])) =
      Id.run (formulaParts Engine.standard Engine.standard.host
          [.groupStart, .char '(', .char 'x', .groupEnd]) ++
        [Tree.errorCall .unexpectedDelimiter none (some "\x7d")] ++
        Id.run (formulaParts Engine.standard Engine.standard.host [.char 'y']) :=
  ⟨by decide, by decide, formulaParts_groupEnd (by decide) (by decide) [.char 'y']⟩

end Reader

end Formula
