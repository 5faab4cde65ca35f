import Formula.Proofs.Reader.Climb
import Formula.Proofs.Reader.Nesting
import Formula.Proofs.Reader.Padding
import Formula.Proofs.Standard.Operators

/-!
  **What is passed over is what belongs together.**

  Three things that no entry claims are passed over as a whole: a block with an unknown name, the
  groups right after an unknown command, and what stands between `\left` and `\right` with an
  unknown delimiter.  Whatever matching tokens stand inside, the reader stops behind the closing
  token that belongs to the opening one, and the error has for its source what was passed.
-/

namespace Formula.Reader

/-! ### Groups, blocks and delimiters -/

/-- Tokens in braces. -/
def braced (s : List Token) : List Token := .groupStart :: (s ++ [.groupEnd])

/-- The name that a group with these tokens gives to a block. -/
def blockName (s : List Token) : String := String.ofList (Text.trim (s.flatMap Token.toList))

/-- A token that makes no space, and the blanks before it. -/
def IsDelimiter (s : List Token) : Prop :=
  ∃ gap t, s = gap ++ [t] ∧ (∀ u ∈ gap, isSpacing u = true) ∧ isSpacing t = false

variable {s rest : List Token}

theorem groupText_braced (hname : .groupEnd ∉ s) :
    groupText (braced s ++ rest) = (some (blockName s), rest) := by
  have hinside : ∀ t ∈ s, (t != .groupEnd) = true := by
    intro t ht
    rw [bne_iff_ne]
    rintro rfl
    exact hname ht
  have hstart : skipSpace (braced s ++ rest) = .groupStart :: (s ++ .groupEnd :: rest) := by
    rw [braced, List.cons_append, List.append_assoc]
    exact skipSpace_cons_of_not _ rfl
  rw [groupText_group hstart, List.takeWhile_append_of_pos hinside,
    List.dropWhile_append_of_pos hinside]
  simp [blockName]

theorem skipDelimiter_append (hs : IsDelimiter s) : skipDelimiter (s ++ rest) = rest := by
  obtain ⟨gap, t, rfl, hgap, ht⟩ := hs
  rw [skipDelimiter, skipSpace, List.append_assoc, List.dropWhile_append_of_pos hgap]
  simp [ht]

theorem skipGroup_braced (h : Balanced s) : skipGroup 1 (s ++ .groupEnd :: rest) = rest := by
  have hpaired : Paired (· == .groupStart) (· == .groupEnd) s := ⟨h.start, h.total⟩
  rw [skipGroup_eq, skipPaired_matched braces_apart hpaired rfl]
  rfl

/-- All the groups that stand here are passed, and no more. -/
theorem skipGroups_braced {groups : List (List Token)}
    (h : ∀ g ∈ groups, Balanced g)
    (hrest : rest.head? ≠ some .groupStart) :
    skipGroups (groups.flatMap braced ++ rest) = rest := by
  induction groups with
  | nil => exact skipGroups_of_not hrest
  | cons g groups ih =>
    rw [List.flatMap_cons, braced, List.cons_append, List.cons_append, skipGroups,
      List.append_assoc, List.append_assoc, List.singleton_append,
      skipGroup_braced (h g List.mem_cons_self)]
    exact ih fun g hg => h g (List.mem_cons_of_mem _ hg)

theorem skipEnvironment_block {body : List Token}
    (h : Paired (Token.isCommand "\\begin") (Token.isCommand "\\end") body)
    (hname : .groupEnd ∉ s) :
    skipEnvironment 1 (body ++ .command "\\end" :: (braced s ++ rest)) = rest := by
  rw [skipEnvironment_eq, skipPaired_matched (isCommand_apart (by decide)) h rfl,
    groupText_braced hname]

theorem skipLeft_delimited {body : List Token}
    (h : Paired (Token.isCommand "\\left") (Token.isCommand "\\right") body)
    (hs : IsDelimiter s) : skipLeft 1 (body ++ .command "\\right" :: (s ++ rest)) = rest := by
  rw [skipLeft_eq, skipPaired_matched (isCommand_apart (by decide)) h rfl,
    skipDelimiter_append hs]

/-! ### Reading what no entry claims -/

/-- What was passed is what stands in front of the place that was reached. -/
theorem between_append_self (passed rest : List Token) :
    between (passed ++ rest) rest = passed := by
  simp [between]

variable {engine : Engine Unit}
  (inner : Terminator → List Token → Id (Option Expr × List Token))

theorem environment_unknown {name body : List Token} (hname : .groupEnd ∉ name)
    (hs : .groupEnd ∉ s)
    (hbody : Paired (Token.isCommand "\\begin") (Token.isCommand "\\end") body)
    (hunknown : engine.dictionary.environment? (blockName name) = none) (rest : List Token) :
    environment engine engine.host inner
        (.command "\\begin" :: (braced name ++ (body ++ .command "\\end" :: (braced s ++ rest)))) =
      pure (Tree.errorCall .unknownEnvironment (some (blockName name)) (some (Latex.ofTokens
        (.command "\\begin" :: (braced name ++ (body ++ .command "\\end" :: braced s))))),
        rest) := by
  have hpassed := between_append_self
    (.command "\\begin" :: (braced name ++ (body ++ .command "\\end" :: braced s))) rest
  simp only [List.cons_append, List.append_assoc] at hpassed
  unfold environment
  simp only [List.drop_one, List.tail_cons, groupText_braced hname, hunknown,
    skipEnvironment_block hbody hs, errorAt_eq, hpassed, pure_bind]

theorem unknownCommand_groups {name : String} {groups : List (List Token)}
    (hgroups : ∀ g ∈ groups, Balanced g)
    (hrest : rest.head? ≠ some .groupStart)
    (hskips : groups ≠ [] ∨ engine.options.promotion ≠ .always) :
    unknownCommand engine engine.host name (.command name :: (groups.flatMap braced ++ rest)) =
      pure (Tree.errorCall .unexpectedCommand (some name) (some (Latex.ofTokens
        (.command name :: groups.flatMap braced))), rest) := by
  have hpassed := between_append_self (.command name :: groups.flatMap braced) rest
  rw [List.cons_append] at hpassed
  have hnot : (!nextIs (· == .groupStart) (groups.flatMap braced ++ rest) &&
      engine.options.promotion == .always) = false := by
    rcases hskips with hne | hoption
    · obtain ⟨g, groups, rfl⟩ := List.exists_cons_of_ne_nil hne
      rfl
    · rw [beq_eq_false_iff_ne.mpr hoption, Bool.and_false]
  unfold unknownCommand
  simp only [List.drop_one, List.tail_cons, hnot, Bool.false_eq_true, if_false,
    skipGroups_braced hgroups hrest, errorAt_eq, hpassed, pure_bind]

theorem unknownLeft_delimited {d body : List Token} (hd : IsDelimiter d) (hs : IsDelimiter s)
    (hbody : Paired (Token.isCommand "\\left") (Token.isCommand "\\right") body)
    (rest : List Token) :
    unknownLeft engine.host
        (.command "\\left" :: (d ++ (body ++ .command "\\right" :: (s ++ rest)))) =
      pure (Tree.errorCall .unexpectedDelimiter none (some (Latex.ofTokens
        (.command "\\left" :: d))), rest) := by
  have hpassed := between_append_self (.command "\\left" :: d)
    (body ++ .command "\\right" :: (s ++ rest))
  rw [List.cons_append] at hpassed
  unfold unknownLeft
  simp only [List.drop_one, List.tail_cons, skipDelimiter_append hd, skipLeft_delimited hbody hs,
    errorAt_eq, hpassed, pure_bind]

/-- No blank and no notation stands here, and no expression has to end. -/
structure Unclaimed (engine : Engine Unit) (stop : Terminator) (start : List Token) : Prop where
  flush : skipSpace start = start
  goesOn : atTerminator engine.dictionary stop start = false
  free : engine.dictionary.candidates start [.symbol, .prefixOp, .matchfix] = []

/-- What no notation claims can be read off the entries. -/
theorem unclaimed_of_entries {entries : List (Entry Unit)}
    (hd : Dictionary.Indexed entries engine.dictionary) {t : Token} {tail : List Token}
    (hspacing : isSpacing t = false) (hboundary : isBoundary t = false)
    (hcloser : entries.any (Entry.closesWith t) = false)
    (hnone : ((entries.flatMap (Entry.readingsAt t)).filterMap fun reading =>
      if reading.entry.kind ∈ [.symbol, .prefixOp, .matchfix] then reading.match? (t :: tail)
      else none).isEmpty = true) :
    Unclaimed engine {} (t :: tail) where
  flush := skipSpace_cons_of_not tail hspacing
  goesOn := atTerminator_of_opens proper_default
    ⟨hspacing, hboundary, (hd.closer_eq t).trans hcloser⟩ tail
  free := by
    rw [Dictionary.candidates_eq, hd.readings_eq, List.isEmpty_iff.mp hnone, List.mergeSort_nil]

theorem Unclaimed.primary_eq {stop : Terminator} {t : Token} {tail rest : List Token} {e : Expr}
    (h : Unclaimed engine stop (t :: tail))
    (hread : unclaimed engine engine.host inner t (t :: tail) = pure (some (e, rest))) :
    primary engine engine.host inner stop (t :: tail) = pure (some e, rest) := by
  rw [primary]
  simp only [h.flush, h.goesOn, h.free, firstAccepted, hread, Bool.false_eq_true, if_false,
    pure_bind]

section

/-! The three are told apart by the command alone. -/

variable {start rest : List Token} {e : Expr}

theorem unclaimed_begin
    (hread : environment engine engine.host inner start = pure (e, rest)) :
    unclaimed engine engine.host inner (.command "\\begin") start = pure (some (e, rest)) := by
  rw [unclaimed, if_pos (by decide), hread, map_pure]

theorem unclaimed_left (hread : unknownLeft engine.host start = pure (e, rest)) :
    unclaimed engine engine.host inner (.command "\\left") start = pure (some (e, rest)) := by
  rw [unclaimed, if_neg (by decide), if_pos (by decide), hread, map_pure]

theorem unclaimed_command {name : String} (hbegin : name ≠ "\\begin") (hleft : name ≠ "\\left")
    (hoperator : atOperator engine.dictionary start = false)
    (hread : unknownCommand engine engine.host name start = pure (e, rest)) :
    unclaimed engine engine.host inner (.command name) start = pure (some (e, rest)) := by
  have hbegin : ¬ (Token.command name).isCommand "\\begin" = true := mt beq_iff_eq.mp hbegin
  have hleft : ¬ (Token.command name).isCommand "\\left" = true := mt beq_iff_eq.mp hleft
  simp only [unclaimed, hbegin, hleft, hoperator, Bool.false_eq_true, if_false, hread, map_pure]

end

/-- **What no entry claims is passed up to the token that closes it.** -/
theorem skips_to_closer (engine : Engine Unit) :
    (∀ n body m rest, .groupEnd ∉ n → .groupEnd ∉ m →
      Paired (Token.isCommand "\\begin") (Token.isCommand "\\end") body →
      engine.dictionary.environment? (blockName n) = none →
      let block := .command "\\begin" :: (braced n ++ (body ++ .command "\\end" :: braced m))
      let e := Tree.errorCall .unknownEnvironment (some (blockName n))
        (some (Latex.ofTokens block))
      environment engine engine.host inner (block ++ rest) = pure (e, rest) ∧
        ∀ stop, Unclaimed engine stop (block ++ rest) →
          primary engine engine.host inner stop (block ++ rest) = pure (some e, rest)) ∧
    (∀ name groups rest, (∀ g ∈ groups, Balanced g) →
      rest.head? ≠ some .groupStart → (groups ≠ [] ∨ engine.options.promotion ≠ .always) →
      let command := .command name :: groups.flatMap braced
      let e := Tree.errorCall .unexpectedCommand (some name) (some (Latex.ofTokens command))
      unknownCommand engine engine.host name (command ++ rest) = pure (e, rest) ∧
        ∀ stop, name ≠ "\\begin" → name ≠ "\\left" →
          Unclaimed engine stop (command ++ rest) →
          atOperator engine.dictionary (command ++ rest) = false →
          primary engine engine.host inner stop (command ++ rest) = pure (some e, rest)) ∧
    (∀ d body d' rest, IsDelimiter d → IsDelimiter d' →
      Paired (Token.isCommand "\\left") (Token.isCommand "\\right") body →
      let skipped := .command "\\left" :: (d ++ (body ++ .command "\\right" :: d'))
      let e := Tree.errorCall .unexpectedDelimiter none
        (some (Latex.ofTokens (.command "\\left" :: d)))
      unknownLeft engine.host (skipped ++ rest) = pure (e, rest) ∧
        ∀ stop, Unclaimed engine stop (skipped ++ rest) →
          primary engine engine.host inner stop (skipped ++ rest) = pure (some e, rest)) := by
  refine ⟨?_, ?_, ?_⟩
  · intro n body m rest hn hm hbody hunknown block e
    have hread : environment engine engine.host inner (block ++ rest) = pure (e, rest) := by
      simpa only [block, List.cons_append, List.append_assoc] using
        environment_unknown inner hn hm hbody hunknown rest
    exact ⟨hread, fun stop hfree => hfree.primary_eq inner (unclaimed_begin inner hread)⟩
  · intro name groups rest hgroups hrest hskips command e
    have hread : unknownCommand engine engine.host name (command ++ rest) = pure (e, rest) :=
      unknownCommand_groups hgroups hrest hskips
    refine ⟨hread, fun stop hbegin hleft hfree hoperator => hfree.primary_eq inner ?_⟩
    exact unclaimed_command inner hbegin hleft hoperator hread
  · intro d body d' rest hd hd' hbody skipped e
    have hread : unknownLeft engine.host (skipped ++ rest) = pure (e, rest) := by
      have hunknown : unknownLeft engine.host
          (.command "\\left" :: (d ++ (body ++ .command "\\right" :: (d' ++ rest)))) = _ :=
        unknownLeft_delimited hd hd' hbody rest
      simpa only [skipped, List.cons_append, List.append_assoc] using hunknown
    exact ⟨hread, fun stop hfree => hfree.primary_eq inner (unclaimed_left inner hread)⟩

/-- In `\begin{ y }\begin{x}a\end{x}\end{z}b` the block ends at the second `\end`, in
    `\foo{a{b}}{c}d` the command ends behind both groups, and in
    `\left\langle\left(a\right)\right )b` all up to the second `\right` is passed, with the
    delimiter behind it. -/
theorem skips_to_closer_nested :
    let first := fun s => primary Engine.standard Engine.standard.host
      (expression Engine.standard Engine.standard.host) {} (tokenize s)
    first "\\begin\x7b y \x7d\\begin\x7bx\x7da\\end\x7bx\x7d\\end\x7bz\x7db" =
      pure (some (Tree.errorCall .unknownEnvironment (some "y")
        (some "\\begin\x7b y \x7d\\begin\x7bx\x7da\\end\x7bx\x7d\\end\x7bz\x7d")), [.char 'b']) ∧
    first "\\foo\x7ba\x7bb\x7d\x7d\x7bc\x7dd" =
      pure (some (Tree.errorCall .unexpectedCommand (some "\\foo")
        (some "\\foo\x7ba\x7bb\x7d\x7d\x7bc\x7d")), [.char 'd']) ∧
    first "\\left\\langle\\left(a\\right)\\right )b" =
      pure (some (Tree.errorCall .unexpectedDelimiter none (some "\\left\\langle")),
        [.char 'b']) := by
  have hskips := skips_to_closer (expression Engine.standard Engine.standard.host) Engine.standard
  have hd : Dictionary.Indexed standardEntries (Engine.standard : Engine Unit).dictionary :=
    Dictionary.indexed_standard
  refine ⟨?_, ?_, ?_⟩
  · have hblock := (hskips.1 (tokenize " y ") (tokenize "\\begin\x7bx\x7da\\end\x7bx\x7d")
      [.char 'z'] [.char 'b'] (by decide +kernel) (by decide) (by decide +kernel)
      (by rw [hd.environment_eq]; exact Option.isNone_iff_eq_none.mp (by decide +kernel))).2 {}
      (unclaimed_of_entries hd rfl rfl (by decide +kernel) (by decide +kernel))
    have hname : blockName (tokenize " y ") = "y" := by decide +kernel
    have hsource : Latex.ofTokens (.command "\\begin" :: (braced (tokenize " y ") ++
        (tokenize "\\begin\x7bx\x7da\\end\x7bx\x7d" ++ .command "\\end" :: braced [.char 'z']))) =
          "\\begin\x7b y \x7d\\begin\x7bx\x7da\\end\x7bx\x7d\\end\x7bz\x7d" := by
      decide +kernel
    have htokens : tokenize "\\begin\x7b y \x7d\\begin\x7bx\x7da\\end\x7bx\x7d\\end\x7bz\x7db" =
        .command "\\begin" :: (braced (tokenize " y ") ++
          (tokenize "\\begin\x7bx\x7da\\end\x7bx\x7d" ++ .command "\\end" :: braced [.char 'z'])) ++
            [.char 'b'] := by
      decide +kernel
    rwa [hname, hsource, ← htokens] at hblock
  · have hfoo : (standardEntries : List (Entry Unit)).flatMap
        (Entry.readingsAt (.command "\\foo")) = [] :=
      List.isEmpty_iff.mp (by decide +kernel)
    have hoperator : ∀ tail, atOperator (Engine.standard : Engine Unit).dictionary
        (.command "\\foo" :: tail) = false := by
      intro tail
      rw [atOperator, Dictionary.lookup?,
        Dictionary.candidates_of_no_readings ((hd.readings_eq _).trans hfoo)]
      rfl
    have hcommand := (hskips.2.1 "\\foo" [tokenize "a\x7bb\x7d", [.char 'c']] [.char 'd']
      (by decide +kernel) (by decide) (Or.inl (List.cons_ne_nil _ _))).2 {} (by decide)
      (by decide) (unclaimed_of_entries hd (by decide) (by decide) (by decide +kernel)
        (by rw [hfoo]; rfl)) (hoperator _)
    have hsource : Latex.ofTokens (.command "\\foo" ::
        [tokenize "a\x7bb\x7d", [.char 'c']].flatMap braced) =
          "\\foo\x7ba\x7bb\x7d\x7d\x7bc\x7d" := by
      decide +kernel
    have htokens : tokenize "\\foo\x7ba\x7bb\x7d\x7d\x7bc\x7dd" =
        .command "\\foo" :: [tokenize "a\x7bb\x7d", [.char 'c']].flatMap braced ++
          [.char 'd'] := by
      decide +kernel
    rwa [hsource, ← htokens] at hcommand
  · have hleft := (hskips.2.2 [.command "\\langle"] (tokenize "\\left(a\\right)")
      [.space, .char ')'] [.char 'b'] ⟨[], .command "\\langle", rfl, by decide, by decide⟩
      ⟨[.space], .char ')', rfl, by decide, rfl⟩ (by decide +kernel)).2 {}
      (unclaimed_of_entries hd rfl rfl (by decide +kernel) (by decide +kernel))
    have hsource : Latex.ofTokens [.command "\\left", .command "\\langle"] =
        "\\left\\langle" := by
      decide +kernel
    have htokens : tokenize "\\left\\langle\\left(a\\right)\\right )b" =
        .command "\\left" :: ([.command "\\langle"] ++
          (tokenize "\\left(a\\right)" ++ .command "\\right" :: [.space, .char ')'])) ++
            [.char 'b'] := by
      decide +kernel
    rwa [hsource, ← htokens] at hleft

end Formula.Reader
