import Formula.Proofs.Reader.Correspondence
import Formula.Proofs.Reader.Parts

/-!
  **Reading two formulas side by side.**

  In two formulas that correspond everything is read as the same expressions, up to places that
  correspond again.  As in the other accounts of the reader there is one lemma for each function,
  from the same statement about nested expressions at places with fewer tokens left.

  The loops have their own fuel in each formula, so they are taken with any two amounts that are
  large enough.
-/

namespace Formula

namespace Reader

variable {engine : Engine Unit} {s s' : List Token}

/-! ### Expressions in a row -/

theorem isSome_eq {R : Expr → Expr → Prop} {a b : Option Expr} (h : Option.Rel R a b) :
    a.isSome = b.isSome := by
  cases h <;> rfl

theorem isEmpty_eq {β γ : Type} {R : β → γ → Prop} {xs : List β} {ys : List γ}
    (h : List.Forall₂ R xs ys) : xs.isEmpty = ys.isEmpty := by
  cases h <;> rfl

theorem forall₂_snoc {R : Expr → Expr → Prop} {xs ys : List Expr} {a b : Expr}
    (h : List.Forall₂ R xs ys) (hab : R a b) : List.Forall₂ R (xs ++ [a]) (ys ++ [b]) :=
  List.rel_append h (.cons hab .nil)

/-! ### The next token -/

/-- A pattern of one token stands where that token stands. -/
theorem matchTokens_singleton {test : Token → Bool} {u : Token}
    (htest : ∀ t, test t = true ↔ t = u) (s : List Token) :
    matchTokens [u] s = if nextIs test s then some (s.drop 1) else none := by
  cases s with
  | nil => rfl
  | cons t v =>
    have hnext : nextIs test (t :: v) = test t := rfl
    rw [matchTokens, hnext]
    by_cases ht : t = u
    · rw [if_pos ht, if_pos ((htest t).mpr ht)]
      rfl
    · rw [if_neg ht, if_neg fun h => ht ((htest t).mp h)]

theorem isChar_iff (c : Char) (t : Token) : t.isChar c = true ↔ t = .char c := by
  cases t <;> simp [Token.isChar]

theorem isCommand_iff (name : String) (t : Token) :
    t.isCommand name = true ↔ t = .command name := by
  cases t <;> simp [Token.isCommand]

theorem isGroupEnd_iff (t : Token) : (t == .groupEnd) = true ↔ t = .groupEnd := beq_iff_eq

/-- The next token is passed in both formulas or in none. -/
theorem ite_next_agrees {β : Type} {R : β → β → Prop} {T : List Token → List Token → Prop}
    {x x' y y' : Id β} {test : Token → Bool} {u : Token} (htest : ∀ t, test t = true ↔ t = u)
    (h : Option.Rel T (matchTokens [u] s) (matchTokens [u] s'))
    (hx : Past s (s.drop 1) → Past s' (s'.drop 1) → T (s.drop 1) (s'.drop 1) → Agrees R x x')
    (hy : Agrees R y y') :
    Agrees R (if nextIs test s then x else y) (if nextIs test s' then x' else y') := by
  rw [matchTokens_singleton htest, matchTokens_singleton htest] at h
  by_cases hnext : nextIs test s = true
  · by_cases hnext' : nextIs test s' = true
    · rw [if_pos hnext, if_pos hnext'] at h ⊢
      cases h with
      | some h => exact hx (nextIs_past hnext) (nextIs_past hnext') h
    · rw [if_pos hnext, if_neg hnext'] at h
      cases h
  · by_cases hnext' : nextIs test s' = true
    · rw [if_neg hnext, if_pos hnext'] at h
      cases h
    · rw [if_neg hnext, if_neg hnext']
      exact hy

theorem Plain.not_command {t : Token} (h : Plain engine t) {name : String}
    (hname : name ∈ ["\\begin", "\\end", "\\left", "\\right"]) : ¬ t.isCommand name = true := by
  obtain ⟨own, rfl, hown⟩ := h.command
  rw [isCommand_iff]
  rintro ⟨⟩
  exact hown hname

theorem Plain.not_groupEnd {t : Token} (h : Plain engine t) : ¬ (t == .groupEnd) = true := by
  obtain ⟨own, rfl, -⟩ := h.command
  simp

theorem SameStart.isCommand_eq {t t' : Token} {v v' : List Token} (h : SameStart engine t t' v v')
    {name : String} (hname : name ∈ ["\\begin", "\\end", "\\left", "\\right"]) :
    t'.isCommand name = t.isCommand name := by
  rcases h with rfl | ⟨⟨hplain, -⟩, hplain', -⟩
  · rfl
  · rw [Bool.eq_false_iff.mpr (hplain.not_command hname),
      Bool.eq_false_iff.mpr (hplain'.not_command hname)]

/-- A token that opens or closes something is the same in both formulas. -/
theorem SameStart.eq_of_isCommand {t t' : Token} {v v' : List Token}
    (h : SameStart engine t t' v v') {name : String}
    (hname : name ∈ ["\\begin", "\\end", "\\left", "\\right"])
    (ht : t.isCommand name = true) : t' = t := by
  rcases h with heq | ⟨⟨hplain, -⟩, -⟩
  · exact heq
  · exact absurd ht (hplain.not_command hname)

/-- Where no blank stands in front nothing is passed without an expression. -/
theorem Outcome.eq_of_flush {Good : Expr → Prop} {after : List Token} (hs : skipSpace s = s)
    (h : Outcome Good s (none, after)) : after = s := by
  have hplace : after = skipSpace s := by
    apply Outcome.eq_of_none
    rw [hs]
    exact h
  rw [hplace, hs]

namespace Correspondence

variable {C : Correspondence} {depth bound limit : Nat} {stop : Terminator}
  {rest rest' : List Token}

/-! ### Places -/

theorem Flush.behind (h : C.Flush depth bound s s') : C.Behind depth s s' := ⟨bound, h.aligned⟩

/-- No brace need be known to be open. -/
theorem Lockstep.outermost (L : C.Lockstep engine) (h : C.Aligned depth bound s s') :
    C.Aligned 0 bound s s' := by
  induction depth with
  | zero => exact h
  | succ depth ih => exact ih (L.outward h)

theorem Lockstep.flush (L : C.Lockstep engine) (h : C.Aligned depth bound s s') :
    C.Flush depth bound (Reader.skipSpace s) (Reader.skipSpace s') :=
  ⟨L.skipSpace h, skipSpace_skipSpace s, skipSpace_skipSpace s'⟩

/-- The separator of cells stands next in both formulas or in none. -/
theorem Lockstep.nextIs_cell (L : C.Lockstep engine) (h : C.Flush depth 0 s s') :
    nextIs (Token.isChar '&') s = nextIs (Token.isChar '&') s' := by
  have hcell := L.pattern L.cell h
  rw [matchTokens_singleton (isChar_iff '&'), matchTokens_singleton (isChar_iff '&')] at hcell
  cases hnext : nextIs (Token.isChar '&') s <;> cases hnext' : nextIs (Token.isChar '&') s' <;>
    simp only [hnext, hnext', if_true, if_false, Bool.false_eq_true] at hcell
  · rfl
  · cases hcell
  · cases hcell
  · rfl

/-! ### What the reader makes -/

theorem build_agrees (L : C.Lockstep engine) (head : String) {xs ys : List Expr}
    (h : List.Forall₂ C.Like xs ys) :
    Agrees C.Like (build engine engine.host head xs) (build engine engine.host head ys) := by
  rw [build_eq, build_eq]
  exact .pure (L.like.call head h)

/-- A call at the end of what is read. -/
theorem build_read (L : C.Lockstep engine) (head : String) {xs ys : List Expr}
    (h : List.Forall₂ C.Like xs ys) (hs : C.Behind depth s s') :
    Agrees (C.SameRead depth)
      (do
        let e ← build engine engine.host head xs
        pure (e, s))
      (do
        let e ← build engine engine.host head ys
        pure (e, s')) := by
  refine (build_agrees L head h).bind ?_
  intro e e' he
  exact .pure ⟨he, hs⟩

theorem build_found (L : C.Lockstep engine) (head : String) {xs ys : List Expr}
    (h : List.Forall₂ C.Like xs ys) (hs : C.Behind depth s s') :
    Agrees (C.SameFound depth)
      (do
        let e ← build engine engine.host head xs
        pure (some (e, s)))
      (do
        let e ← build engine engine.host head ys
        pure (some (e, s'))) := by
  refine (build_agrees L head h).bind ?_
  intro e e' he
  exact .pure (.some ⟨he, hs⟩)

theorem errorAt_agrees (L : C.Lockstep engine) (code : ErrorCode) (argument : Option String)
    (hs : C.Behind depth s s') {depth' : Nat} (hrest : C.Behind depth' rest rest') :
    Agrees C.Like (errorAt engine.host code argument s rest)
      (errorAt engine.host code argument s' rest') := by
  obtain ⟨bound, hs⟩ := hs
  obtain ⟨bound', hrest⟩ := hrest
  rw [errorAt_eq, errorAt_eq]
  exact .pure (L.error hs hrest code argument)

/-- An error and the place where it ends. -/
theorem errorAt_read (L : C.Lockstep engine) (code : ErrorCode) (argument : Option String)
    (hs : C.Behind depth s s') {depth' : Nat} (hrest : C.Behind depth' rest rest') :
    Agrees (C.SameRead depth')
      (do
        let e ← errorAt engine.host code argument s rest
        pure (e, rest))
      (do
        let e ← errorAt engine.host code argument s' rest'
        pure (e, rest')) := by
  refine (errorAt_agrees L code argument hs hrest).bind ?_
  intro e e' he
  exact .pure ⟨he, hrest⟩

theorem getD_like (L : C.Lockstep engine) {a b : Option Expr} (h : Option.Rel C.Like a b)
    (e : Expr) : C.Like (a.getD e) (b.getD e) := by
  cases h with
  | none => exact L.like.refl e
  | some h => exact h

theorem orMissing_agrees (L : C.Lockstep engine) {a b : Option Expr} (h : Option.Rel C.Like a b) :
    Agrees C.Like (orMissing engine.host a) (orMissing engine.host b) := by
  rw [orMissing_eq, orMissing_eq]
  exact .pure (getD_like L h _)

/-! ### Nested expressions -/

/-- Nested expressions are the same, and each is read from its place on. -/
theorem NestedAgree.read (hinner : C.NestedAgree engine limit) (h : engine.Accepted)
    (hstop : C.Stops stop) (hs : C.Aligned depth 0 s s') (hlt : s.length < limit) :
    Agrees (fun x y => C.SameOutcome depth stop.minPrec x y ∧ Outcome (fun _ => True) s x ∧
        Outcome (fun _ => True) s' y)
      (expression engine engine.host stop s) (expression engine engine.host stop s') :=
  (hinner _ _ _ _ hstop hs hlt).with_each (expression_settles (setting_accepted h) stop s).2
    (expression_settles (setting_accepted h) stop s').2

/-! ### Tables -/

theorem cells_agrees (L : C.Lockstep engine) (h : engine.Accepted)
    (hinner : C.NestedAgree engine limit) {fuel fuel' : Nat} {row row' : List Expr}
    (hrow : List.Forall₂ C.Like row row') (hs : C.Aligned depth 0 rest rest')
    (hlimit : rest.length < limit) (hfuel : rest.length < fuel) (hfuel' : rest'.length < fuel') :
    Agrees (C.SameList depth)
      (cells engine.host (expression engine engine.host) fuel row rest)
      (cells engine.host (expression engine engine.host) fuel' row' rest') := by
  induction fuel generalizing fuel' row row' rest rest' with
  | zero => omega
  | succ fuel ih =>
    cases fuel' with
    | zero => omega
    | succ fuel' =>
      rw [cells, cells]
      refine (hinner.read h stops_default hs hlimit).bind ?_
      rintro ⟨cell, after⟩ ⟨cell', after'⟩ ⟨⟨hcell, hafter, -⟩, hout, hout'⟩
      have hskip : C.Flush depth 0 (skipSpace after) (skipSpace after') := L.flush hafter
      have hle : (skipSpace after).length ≤ rest.length :=
        ((skipSpace_suffix after).trans hout.suffix).length_le
      have hle' : (skipSpace after').length ≤ rest'.length :=
        ((skipSpace_suffix after').trans hout'.suffix).length_le
      have hgrown := forall₂_snoc hrow (getD_like L hcell (.symbol "Nothing"))
      have hrow' : List.Forall₂ C.Like
          (if cell.isSome || nextIs (Token.isChar '&') (skipSpace after) || !row.isEmpty then
            row ++ [cell.getD (.symbol "Nothing")] else row)
          (if cell'.isSome || nextIs (Token.isChar '&') (skipSpace after') || !row'.isEmpty then
            row' ++ [cell'.getD (.symbol "Nothing")] else row') := by
        rw [isSome_eq hcell, L.nextIs_cell hskip, isEmpty_eq hrow]
        split
        · exact hgrown
        · exact hrow
      dsimp only
      refine ite_next_agrees (isChar_iff '&') (L.pattern L.cell hskip) ?_ (.pure ⟨hrow', hskip⟩)
      intro hpast hpast' hnext
      have hlt := hpast.2
      have hlt' := hpast'.2
      exact ih hrow' hnext (by omega) (by omega) (by omega)

theorem rows_agrees (L : C.Lockstep engine) (h : engine.Accepted)
    (hinner : C.NestedAgree engine limit) {fuel fuel' : Nat} {table table' : List Expr}
    (htable : List.Forall₂ C.Like table table') (hs : C.Aligned depth 0 rest rest')
    (hlimit : rest.length < limit) (hfuel : rest.length < fuel) (hfuel' : rest'.length < fuel') :
    Agrees (C.SameList depth)
      (rows engine engine.host (expression engine engine.host) fuel table rest)
      (rows engine engine.host (expression engine engine.host) fuel' table' rest') := by
  induction fuel generalizing fuel' table table' rest rest' with
  | zero => omega
  | succ fuel ih =>
    cases fuel' with
    | zero => omega
    | succ fuel' =>
      have hsettled := fun rest : List Token => (cells_settles (setting_accepted h)
        (nested_self h (rest.length + 1)) good_nil (Nat.lt_succ_self _)
        (Nat.lt_succ_self rest.length) (Nat.lt_succ_self _)).2
      rw [rows, rows]
      refine ((cells_agrees L h hinner .nil hs hlimit (Nat.lt_succ_self _)
        (Nat.lt_succ_self _)).with_each (hsettled rest) (hsettled rest')).bind ?_
      rintro ⟨row, after⟩ ⟨row', after'⟩
        ⟨⟨hrow, (hafter : C.Flush depth 0 after after')⟩, hout, hout'⟩
      have hle : after.length ≤ rest.length := hout.2.length_le
      have hle' : after'.length ≤ rest'.length := hout'.2.length_le
      have hloop : ∀ {table table' : List Expr}, List.Forall₂ C.Like table table' →
          Agrees (C.SameList depth)
            (if nextIs (Token.isCommand "\\\\") after then
              rows engine engine.host (expression engine engine.host) fuel table (after.drop 1)
            else pure (table, after))
            (if nextIs (Token.isCommand "\\\\") after' then
              rows engine engine.host (expression engine engine.host) fuel' table' (after'.drop 1)
            else pure (table', after')) := by
        intro table table' htable
        refine ite_next_agrees (isCommand_iff "\\\\") (L.pattern L.row hafter) ?_
          (.pure ⟨htable, hafter⟩)
        intro hpast hpast' hnext
        have hlt := hpast.2
        have hlt' := hpast'.2
        exact ih htable hnext (by omega) (by omega) (by omega)
      have hempty := isEmpty_eq hrow
      dsimp only at hrow hempty ⊢
      by_cases hrow' : row.isEmpty = true
      · rw [if_pos hrow', if_pos (hempty ▸ hrow'), pure_bind, pure_bind]
        exact hloop htable
      · rw [if_neg hrow', if_neg (hempty ▸ hrow')]
        simp only [build_eq, pure_bind]
        exact hloop (forall₂_snoc htable (L.like.call "List" hrow))

theorem tabular_agrees (L : C.Lockstep engine) (h : engine.Accepted)
    (hinner : C.NestedAgree engine limit) (hs : C.Aligned depth 0 rest rest')
    (hlimit : rest.length < limit) :
    Agrees (fun x y => C.Like x.1 y.1 ∧ C.Aligned depth 0 x.2 y.2)
      (tabular engine engine.host (expression engine engine.host) rest)
      (tabular engine engine.host (expression engine engine.host) rest') := by
  rw [tabular, tabular]
  refine (rows_agrees L h hinner .nil hs hlimit (Nat.lt_succ_self _) (Nat.lt_succ_self _)).bind ?_
  rintro ⟨table, after⟩ ⟨table', after'⟩ ⟨htable, hafter⟩
  refine (build_agrees L "List" htable).bind ?_
  intro e e' he
  exact .pure ⟨he, hafter.aligned⟩

/-! ### Everything up to the end -/

theorem Lockstep.lookup? (L : C.Lockstep engine) {t : Token} {v : List Token}
    (h : C.Flush depth 0 (t :: v) s') (kinds : List Kind) :
    Option.Rel (C.SameMatch depth) (engine.dictionary.lookup? (t :: v) kinds)
      (engine.dictionary.lookup? s' kinds) := by
  have hfound := L.candidates kinds h
  unfold Dictionary.lookup?
  generalize engine.dictionary.candidates (t :: v) kinds = found at hfound ⊢
  generalize engine.dictionary.candidates s' kinds = found' at hfound ⊢
  cases hfound with
  | nil => exact .none
  | cons hsame _ => exact .some hsame

theorem Lockstep.atOperator (L : C.Lockstep engine) {t : Token} {v : List Token}
    (h : C.Flush depth 0 (t :: v) s') :
    atOperator engine.dictionary (t :: v) = atOperator engine.dictionary s' := by
  have hlookup := L.lookup? h [.infixOp, .postfixOp]
  unfold Reader.atOperator
  generalize engine.dictionary.lookup? (t :: v) [.infixOp, .postfixOp] = found at hlookup
  generalize engine.dictionary.lookup? s' [.infixOp, .postfixOp] = found' at hlookup
  cases hlookup <;> rfl

/-- What makes no expression is left over in both formulas. -/
theorem leftover_agrees (L : C.Lockstep engine) {t : Token} {v : List Token}
    (hs : C.Flush 0 0 (t :: v) s')
    (hnone : expression engine engine.host {} (t :: v) = pure (none, t :: v)) :
    Agrees (fun x y => C.Like x.1 y.1 ∧ C.Aligned 0 0 x.2 y.2)
      (leftover engine engine.host (t :: v)) (leftover engine engine.host s') := by
  obtain ⟨t', v', rfl, hstart⟩ := L.start hs
  have hdrop : C.Aligned 0 0 v v' := L.drop hs hnone
  have hlookup := L.lookup? hs [.infixOp, .postfixOp, .prefixOp]
  have herror : ∀ (code : ErrorCode) {rest rest' : List Token}, C.Aligned 0 0 rest rest' →
      Agrees (fun x y => C.Like x.1 y.1 ∧ C.Aligned 0 0 x.2 y.2)
        (do
          let e ← errorAt engine.host code none (t :: v) rest
          pure (e, rest))
        (do
          let e ← errorAt engine.host code none (t' :: v') rest'
          pure (e, rest')) := by
    intro code rest rest' hrest
    refine (errorAt_agrees L code none hs.behind ⟨0, hrest⟩).bind ?_
    intro e e' he
    exact .pure ⟨he, hrest⟩
  have hcloses : (t' == .groupEnd || engine.dictionary.isCloser t') =
      (t == .groupEnd || engine.dictionary.isCloser t) := by
    rcases hstart with rfl | ⟨⟨hplain, -⟩, hplain', -⟩
    · rfl
    · rw [hplain.closer, hplain'.closer, Bool.eq_false_iff.mpr hplain.not_groupEnd,
        Bool.eq_false_iff.mpr hplain'.not_groupEnd]
  unfold leftover
  dsimp only
  rw [hstart.isCommand_eq (by simp), hstart.isCommand_eq (by simp), hcloses]
  by_cases hright : t.isCommand "\\right" = true
  · obtain rfl := hstart.eq_of_isCommand (by simp) hright
    simp only [if_pos hright]
    exact herror _ (L.right hs hright)
  simp only [if_neg hright]
  by_cases hend : t.isCommand "\\end" = true
  · obtain rfl := hstart.eq_of_isCommand (by simp) hend
    simp only [if_pos hend]
    exact herror _ (L.ends hs hend)
  simp only [if_neg hend]
  by_cases hcloser : (t == .groupEnd || engine.dictionary.isCloser t) = true
  · simp only [if_pos hcloser]
    exact herror _ hdrop
  simp only [if_neg hcloser]
  generalize engine.dictionary.lookup? (t :: v) [.infixOp, .postfixOp, .prefixOp] = found
    at hlookup ⊢
  generalize engine.dictionary.lookup? (t' :: v') [.infixOp, .postfixOp, .prefixOp] = found'
    at hlookup ⊢
  cases hlookup with
  | none => exact herror _ hdrop
  | some hsame => exact herror _ hsame.after

theorem parts_agrees (L : C.Lockstep engine) (hwhole : C.Whole) (h : engine.Accepted)
    (hinner : C.NestedAgree engine limit) {fuel fuel' : Nat} {found found' : List Expr}
    (hfound : List.Forall₂ C.Like found found') (hs : C.Aligned 0 0 rest rest')
    (hlimit : rest.length < limit) (hfuel : rest.length < fuel) (hfuel' : rest'.length < fuel') :
    Agrees (fun x y => List.Forall₂ C.Like x.1 y.1 ∧ C.Aligned 0 0 x.2 y.2)
      (parts engine engine.host (expression engine engine.host) fuel found rest)
      (parts engine engine.host (expression engine engine.host) fuel' found' rest') := by
  induction fuel generalizing fuel' found found' rest rest' with
  | zero => omega
  | succ fuel ih =>
    cases fuel' with
    | zero => omega
    | succ fuel' =>
      have hskip : C.Flush 0 0 (skipSpace rest) (skipSpace rest') := L.flush hs
      have hle := (skipSpace_suffix rest).length_le
      have hle' := (skipSpace_suffix rest').length_le
      have hempty := hwhole.isEmpty hskip
      rw [parts, parts]
      by_cases hrest : (skipSpace rest).isEmpty = true
      · simp only [if_pos hrest, if_pos (hempty ▸ hrest)]
        exact .pure ⟨hfound, hskip.aligned⟩
      simp only [if_neg hrest, if_neg (hempty ▸ hrest)]
      generalize skipSpace rest = place at hskip hle hrest hempty ⊢
      generalize skipSpace rest' = place' at hskip hle' hempty ⊢
      obtain _ | ⟨t, v⟩ := place
      · exact absurd rfl hrest
      refine ((hinner.read h stops_default hskip.aligned (by omega)).with_left
        (P := fun x => expression engine engine.host {} (t :: v) = pure x) rfl).bind ?_
      rintro ⟨e, after⟩ ⟨e', after'⟩
        ⟨⟨⟨he, (hafter : C.Aligned 0 0 after after'), -⟩, hout, hout'⟩, hread⟩
      cases he with
      | some he =>
        have hlt : after.length < (t :: v).length := hout.2.2
        have hlt' : after'.length < place'.length := hout'.2.2
        exact ih (forall₂_snoc hfound he) hafter (by omega) (by omega) (by omega)
      | none =>
        -- no expression starts here, and no blank stands here either
        obtain rfl : after = t :: v := hout.eq_of_flush hskip.left
        obtain rfl : after' = place' := hout'.eq_of_flush hskip.right
        have hsettled := fun place (hplace : place ≠ []) =>
          (leftover_settles (setting_accepted h) hplace).2.2
        have hne' : after' ≠ [] := by
          rintro rfl
          cases hempty
        refine ((leftover_agrees L hskip hread).with_each (P := fun r => Past (t :: v) r.2)
          (Q := fun r => Past after' r.2) (hsettled _ (List.cons_ne_nil t v))
          (hsettled _ hne')).bind ?_
        rintro ⟨e, after⟩ ⟨e', after''⟩ ⟨⟨he, hafter⟩, hout, hout'⟩
        have hlt : after.length < (t :: v).length := hout.2
        have hlt' : after''.length < after'.length := hout'.2
        dsimp only
        exact ih (forall₂_snoc hfound he) hafter (by omega) (by omega) (by omega)

theorem combine_agrees (L : C.Lockstep engine) {found found' : List Expr}
    (h : List.Forall₂ C.Like found found') :
    Agrees C.Like (combine engine engine.host found) (combine engine engine.host found') := by
  cases h with
  | nil => exact .pure (L.like.refl _)
  | cons he hrest =>
    cases hrest with
    | nil => exact .pure he
    | cons he' hrest => exact build_agrees L "Sequence" (.cons he (.cons he' hrest))

theorem root_agrees (L : C.Lockstep engine) (hwhole : C.Whole) (h : engine.Accepted)
    (hinner : C.NestedAgree engine limit) (hs : C.Aligned depth 0 rest rest')
    (hlimit : rest.length < limit) :
    Agrees (fun x y => C.Like x.1 y.1 ∧ C.Aligned depth 0 x.2 y.2)
      (root engine engine.host (expression engine engine.host) rest)
      (root engine engine.host (expression engine engine.host) rest') := by
  rw [root, root]
  refine (parts_agrees L hwhole h hinner .nil (L.outermost hs) hlimit (Nat.lt_succ_self _)
    (Nat.lt_succ_self _)).bind ?_
  rintro ⟨found, after⟩ ⟨found', after'⟩ ⟨hfound, hafter⟩
  refine (combine_agrees L hfound).bind ?_
  intro e e' he
  exact .pure ⟨he, hwhole.level hafter⟩

/-! ### Scripts -/

theorem runScript_agrees (L : C.Lockstep engine) (h : engine.Accepted)
    (hinner : C.NestedAgree engine limit) {script script' : Script Unit}
    (hscript : C.SameScript bound script script') {saved saved' : List (List Token)}
    (hs : C.Aligned depth bound rest rest') (hlimit : rest.length < limit)
    (hsaved : List.Forall₂ (C.Aligned depth 0) saved saved')
    (hplaces : ∀ place ∈ saved, place.length < limit) :
    Agrees (C.SameResult depth)
      (runScript engine engine.host (expression engine engine.host) script saved rest)
      (runScript engine engine.host (expression engine engine.host) script' saved' rest') := by
  induction hscript generalizing saved saved' rest rest' with
  | done hresult => exact .pure ⟨hresult, _, hs⟩
  | expression loose hstop _ ih =>
    rw [runScript, runScript]
    refine (hinner.read h hstop (loose _ _ _ hs) hlimit).bind ?_
    rintro ⟨e, after⟩ ⟨e', after'⟩ ⟨⟨he, hafter, -⟩, hout, -⟩
    have hle : after.length ≤ rest.length := hout.suffix.length_le
    exact ih e e' he hafter (by omega) hsaved hplaces
  | tabular loose _ ih =>
    have hsettled := (tabular_settles (setting_accepted h) (nested_self h (rest.length + 1))
      (Nat.lt_succ_self rest.length)).2
    rw [runScript, runScript]
    refine ((tabular_agrees L h hinner (loose _ _ _ hs) hlimit).with_left
      (P := fun r => True ∧ r.2 <:+ rest) hsettled).bind ?_
    rintro ⟨e, after⟩ ⟨e', after'⟩ ⟨⟨he, hafter⟩, hout⟩
    have hle : after.length ≤ rest.length := hout.2.length_le
    exact ih e e' he hafter (by omega) hsaved hplaces
  | root loose hwhole _ ih =>
    have hsettled := (root_settles (setting_accepted h) (nested_self h (rest.length + 1))
      (Nat.lt_succ_self rest.length)).2
    rw [runScript, runScript]
    refine ((root_agrees L hwhole h hinner (loose _ _ _ hs) hlimit).with_left
      (P := fun r => True ∧ r.2 = []) hsettled).bind ?_
    rintro ⟨e, after⟩ ⟨e', after'⟩ ⟨⟨he, hafter⟩, -, (hend : after = [])⟩
    refine ih e e' he hafter ?_ hsaved hplaces
    rw [hend]
    exact Nat.lt_of_le_of_lt (Nat.zero_le _) hlimit
  | skipSpace _ ih =>
    rw [runScript, runScript]
    have hle := (skipSpace_suffix rest).length_le
    exact ih (L.skipSpace hs) (by omega) hsaved hplaces
  | peek loose _ ih =>
    rw [runScript, runScript]
    have hopen := loose _ _ _ hs
    exact ih _ _ (L.seen hopen) hopen hlimit hsaved hplaces
  | checkpoint loose _ ih =>
    rw [runScript, runScript]
    have hopen := loose _ _ _ hs
    refine ih hopen hlimit (List.rel_append hsaved (.cons hopen .nil)) ?_
    intro place hplace
    rcases List.mem_append.mp hplace with hplace | hplace
    · exact hplaces place hplace
    · rw [List.mem_singleton.mp hplace]
      exact hlimit
  | rewind loose place _ ih =>
    rw [runScript, runScript]
    have hopen := loose _ _ _ hs
    have hback : C.Aligned depth 0 (saved[place]?.getD rest) (saved'[place]?.getD rest') ∧
        (saved[place]?.getD rest).length < limit := by
      by_cases hplace : place < saved.length
      · have hplace' : place < saved'.length := hsaved.length_eq ▸ hplace
        rw [List.getElem?_eq_getElem hplace, List.getElem?_eq_getElem hplace']
        exact ⟨hsaved.get hplace hplace', hplaces _ (List.getElem_mem hplace)⟩
      · have hplace' : saved'.length ≤ place := hsaved.length_eq ▸ Nat.le_of_not_lt hplace
        rw [List.getElem?_eq_none (Nat.le_of_not_lt hplace), List.getElem?_eq_none hplace']
        exact ⟨hopen, hlimit⟩
    exact ih hback.1 hback.2 hsaved hplaces
  | build head hops _ ih =>
    rw [runScript, runScript]
    refine (build_agrees L head hops).bind ?_
    intro e e' he
    exact ih e e' he hs hlimit hsaved hplaces
  | domain he _ ih =>
    rw [runScript, runScript]
    have hsame : ∀ e, engine.host.domain e = pure (engine.domain e) := fun _ => rfl
    rw [hsame, hsame, L.like.domain he, pure_bind, pure_bind]
    exact ih _ hs hlimit hsaved hplaces
  | compatible he l _ ih =>
    rw [runScript, runScript]
    have hsame : ∀ e, engine.host.compatible e l = pure (engine.isCompatible e (.literal l)) :=
      fun _ => rfl
    rw [hsame, hsame, Engine.isCompatible, Engine.isCompatible, L.like.domain he, pure_bind,
      pure_bind]
    exact ih _ hs hlimit hsaved hplaces

/-! ### Notations -/

theorem matchfix_agrees (L : C.Lockstep engine) (hinner : C.NestedAgree engine limit)
    {entry entry' : Entry Unit} (hentry : entry ∈ engine.dictionary.entries)
    (hkind : entry.kind = .matchfix) (hclose : entry'.close = entry.close) (head : String)
    (hs : C.Behind depth s s') {after after' : List Token} (hafter : C.Aligned depth 0 after after')
    (hlimit : after.length < limit) :
    Agrees (C.SameRead depth)
      (matchfix engine engine.host (expression engine engine.host) entry head s after)
      (matchfix engine engine.host (expression engine engine.host) entry' head s' after') := by
  have hadmits := L.close entry hentry hkind
  rw [matchfix, matchfix, hclose]
  generalize (entry.close.map Trigger.tokens).getD [] = close at hadmits ⊢
  have hstop : C.Stops { minPrec := 0, close := some close } := by
    rintro own ⟨rfl⟩
    exact hadmits
  refine (hinner _ _ _ _ hstop hafter hlimit).bind ?_
  rintro ⟨body, rest⟩ ⟨body', rest'⟩ ⟨hbody, hrest, -⟩
  have hskip : C.Flush depth 0 (skipSpace rest) (skipSpace rest') := L.flush hrest
  have hend := L.pattern hadmits hskip
  dsimp only at hbody ⊢
  generalize matchTokens close (skipSpace rest) = found at hend ⊢
  generalize matchTokens close (skipSpace rest') = found' at hend ⊢
  cases hend with
  | none => exact errorAt_read L _ none hs hskip.behind
  | some hend =>
    refine build_read L head ?_ ⟨0, hend⟩
    cases hbody with
    | none => exact .nil
    | @some body body' hbody =>
      dsimp only
      rw [← L.like.hasHead hbody]
      split
      · rename_i hsequence
        rw [Bool.and_eq_true] at hsequence
        exact L.like.ops hbody _ (by decide) hsequence.2
      · exact .cons hbody .nil

theorem byKind_agrees (L : C.Lockstep engine) (hinner : C.NestedAgree engine limit)
    {entry entry' : Entry Unit} (hentry : entry ∈ engine.dictionary.entries)
    (htwin : Entry.Twin entry entry') {lhs lhs' : Option Expr} (hlhs : Option.Rel C.Like lhs lhs')
    (hstop : C.Stops stop) (hs : C.Behind depth s s') {after after' : List Token}
    (hafter : C.Aligned depth 0 after after') (hlimit : after.length < limit) :
    Agrees (C.SameFound depth)
      (byKind engine engine.host (expression engine engine.host) entry lhs stop s after)
      (byKind engine engine.host (expression engine engine.host) entry' lhs' stop s' after') := by
  have hbound : rightBound entry' = rightBound entry := by
    rw [rightBound, rightBound, htwin.associativity, htwin.precedence]
  unfold byKind
  rw [htwin.head, htwin.kind, htwin.precedence, hbound]
  cases entry.head? with
  | none => exact .pure .none
  | some head =>
    dsimp only
    cases hkind : entry.kind with
    | symbol => exact .pure (.some ⟨L.like.refl _, 0, hafter⟩)
    | prefixOp =>
      refine (hinner _ _ _ _ (hstop.withMinPrec _) hafter hlimit).bind ?_
      rintro ⟨operand, rest⟩ ⟨operand', rest'⟩ ⟨hoperand, hrest, -⟩
      refine (orMissing_agrees L hoperand).bind ?_
      intro operand operand' hoperand
      exact build_found L head (.cons hoperand .nil) ⟨_, hrest⟩
    | infixOp =>
      cases hlhs with
      | none => exact .pure .none
      | some hlhs =>
        refine (hinner _ _ _ _ (hstop.withMinPrec _) hafter hlimit).bind ?_
        rintro ⟨rhs, rest⟩ ⟨rhs', rest'⟩ ⟨hrhs, hrest, -⟩
        refine (orMissing_agrees L hrhs).bind ?_
        intro rhs rhs' hrhs
        exact build_found L head (.cons hlhs (.cons hrhs .nil)) ⟨_, hrest⟩
    | postfixOp =>
      cases hlhs with
      | none => exact .pure .none
      | some hlhs => exact build_found L head (.cons hlhs .nil) ⟨0, hafter⟩
    | «matchfix» =>
      refine (matchfix_agrees L hinner hentry hkind (htwin.close hkind) head hs hafter
        hlimit).bind ?_
      intro found found' hfound
      exact .pure (.some hfound)
    | environment => exact .pure .none

theorem accept_agrees (L : C.Lockstep engine) (h : engine.Accepted)
    (hinner : C.NestedAgree engine limit) {lhs lhs' : Option Expr}
    (hlhs : Option.Rel C.Like lhs lhs') (hstop : C.Stops stop) (hs : C.Behind depth s s')
    {found found' : TriggerMatch Unit} (hfound : C.SameMatch depth found found')
    (hentry : found.entry ∈ engine.dictionary.entries) (hlimit : found.after.length < limit) :
    Agrees (C.SameFound depth)
      (accept engine engine.host (expression engine engine.host) lhs stop s found)
      (accept engine engine.host (expression engine engine.host) lhs' stop s' found') := by
  by_cases hcustom : found.entry.isCustom = true
  · obtain ⟨handler, hparse⟩ : ∃ handler, found.entry.parse = .custom handler := by
      cases hparse : found.entry.parse with
      | custom handler => exact ⟨handler, rfl⟩
      | _ =>
        rw [Entry.isCustom, hparse] at hcustom
        cases hcustom
    have hparse' : found'.entry.parse = .custom handler := by
      rcases hfound.twin.rule with hsame | ⟨hplain, -⟩
      · rw [hsame, hparse]
      · rw [hplain] at hcustom
        cases hcustom
    have hscript := L.script _ hentry handler hparse lhs lhs' stop hlhs hstop
    simp only [accept, hparse, hparse']
    refine (runScript_agrees L h hinner hscript hfound.after hlimit .nil (by simp)).bind ?_
    rintro ⟨e, rest⟩ ⟨e', rest'⟩ ⟨he, hrest⟩
    cases he with
    | none => exact .pure .none
    | some he => exact .pure (.some ⟨he, hrest⟩)
  · have hplain : found.entry.isCustom = false := Bool.eq_false_iff.mpr hcustom
    have hplain' : found'.entry.isCustom = false := by
      rcases hfound.twin.rule with hsame | ⟨-, hplain'⟩
      · rw [Entry.isCustom, hsame]
        exact hplain
      · exact hplain'
    rw [accept_eq_byKind hplain, accept_eq_byKind hplain']
    exact byKind_agrees L hinner hentry hfound.twin hlhs hstop hs hfound.after hlimit

theorem firstAccepted_agrees (L : C.Lockstep engine) (h : engine.Accepted)
    (hinner : C.NestedAgree engine limit) {lhs lhs' : Option Expr}
    (hlhs : Option.Rel C.Like lhs lhs') (hstop : C.Stops stop) (hs : C.Behind depth s s')
    {found found' : List (TriggerMatch Unit)}
    (hfound : List.Forall₂ (C.SameMatch depth) found found')
    (hmem : ∀ one ∈ found, one.entry ∈ engine.dictionary.entries ∧ one.after.length < limit) :
    Agrees (C.SameFound depth)
      (firstAccepted engine engine.host (expression engine engine.host) lhs stop s found)
      (firstAccepted engine engine.host (expression engine engine.host) lhs' stop s' found') := by
  induction hfound with
  | nil => exact .pure .none
  | @cons one one' others others' hone _ ih =>
    obtain ⟨hentry, hlimit⟩ := hmem one List.mem_cons_self
    rw [firstAccepted_cons, firstAccepted_cons]
    refine (accept_agrees L h hinner hlhs hstop hs hone hentry hlimit).bind ?_
    intro result result' hresult
    cases hresult with
    | none => exact ih fun one hone => hmem one (List.mem_cons_of_mem _ hone)
    | some hresult => exact .pure (.some hresult)

/-! ### Operators -/

theorem juxtaposed_agrees (L : C.Lockstep engine) (hinner : C.NestedAgree engine limit)
    {lhs lhs' : Expr} (hlhs : C.Like lhs lhs') (hstop : C.Stops stop)
    (hs : C.Aligned depth 0 rest rest') (hlimit : rest.length < limit) :
    Agrees (C.SameFound depth)
      (juxtaposed engine engine.host (expression engine engine.host) lhs stop rest)
      (juxtaposed engine engine.host (expression engine engine.host) lhs' stop rest') := by
  unfold juxtaposed
  split
  · exact .pure .none
  · rename_i head _
    split
    · exact .pure .none
    · refine (hinner _ _ _ _ (hstop.withMinPrec _) hs hlimit).bind ?_
      rintro ⟨rhs, after⟩ ⟨rhs', after'⟩ ⟨hrhs, hafter, -⟩
      cases hrhs with
      | none => exact .pure .none
      | some hrhs => exact build_found L head (.cons hlhs (.cons hrhs .nil)) ⟨_, hafter⟩

/-- What matches at a place is of an entry of the dictionary and ends behind the place. -/
theorem candidates_bounded (h : engine.Accepted) {kinds : List Kind} {s : List Token}
    (hlimit : s.length ≤ limit) :
    ∀ found ∈ engine.dictionary.candidates s kinds,
      found.entry ∈ engine.dictionary.entries ∧ found.after.length < limit := by
  intro found hfound
  obtain ⟨hentry, -, hpast⟩ := h.candidate hfound
  exact ⟨hentry, Nat.lt_of_lt_of_le hpast.2 hlimit⟩

/-- The next operator is read in both formulas, or the next factor, or neither. -/
theorem following_agrees (L : C.Lockstep engine) (h : engine.Accepted)
    (hinner : C.NestedAgree engine limit) {lhs lhs' : Expr} (hlhs : C.Like lhs lhs')
    (hstop : C.Stops stop) {t : Token} {v : List Token} (hs : C.Flush depth 0 (t :: v) s')
    (hlimit : (t :: v).length < limit) :
    Agrees (C.SameFound depth) (following engine stop lhs (t :: v))
      (following engine stop lhs' s') := by
  have hfound := L.candidates [.infixOp, .postfixOp] hs
  unfold following
  dsimp only
  rw [← isEmpty_eq hfound]
  split
  · exact juxtaposed_agrees L hinner hlhs hstop hs.aligned hlimit
  · refine firstAccepted_agrees L h hinner (.some hlhs) hstop hs.behind ?_ ?_
    · refine List.rel_filter (fun found found' hsame => ?_) hfound
      simp only [hsame.twin.precedence]
    · intro one hone
      exact candidates_bounded h (Nat.le_of_lt hlimit) one (List.mem_filter.mp hone).1

/-- What comes after an expression ends behind it. -/
theorem following_advanced (h : engine.Accepted) (stop : Terminator) (lhs : Expr)
    (rest : List Token) :
    Advanced (fun _ => True) rest (Id.run (following engine stop lhs rest)) := by
  unfold following
  dsimp only
  split
  · exact (juxtaposed_settles (setting_accepted h) (nested_self h _) trivial stop
      (Nat.lt_succ_self rest.length)).2
  · refine (firstAccepted_settles (setting_accepted h) (nested_self h rest.length)
      (fun _ _ => trivial) stop (Nat.le_refl rest.length) ?_).2
    intro one hone
    have hcandidate := h.candidate (List.mem_filter.mp hone).1
    exact ⟨hcandidate.1, hcandidate.2.2⟩

/-- One round of the operators after an expression. -/
theorem operators_succ (engine : Engine Unit) (stop : Terminator) (fuel : Nat) (lhs : Expr)
    (rest : List Token) :
    operators engine engine.host (expression engine engine.host) stop (fuel + 1) lhs rest =
      (do
        if atTerminator engine.dictionary stop (skipSpace rest) then pure (lhs, skipSpace rest)
        else
          match ← following engine stop lhs (skipSpace rest) with
          | some (e, rest) =>
            operators engine engine.host (expression engine engine.host) stop fuel e rest
          | none => pure (lhs, skipSpace rest)) := by
  rw [operators, following]
  dsimp only
  split
  · rfl
  · split
    all_goals
      refine bind_congr ?_
      rintro (_ | ⟨e, after⟩) <;> rfl

theorem operators_agrees (L : C.Lockstep engine) (h : engine.Accepted)
    (hinner : C.NestedAgree engine limit) (hstop : C.Stops stop) {fuel fuel' : Nat}
    {lhs lhs' : Expr} (hlhs : C.Like lhs lhs') (hs : C.Behind depth rest rest')
    (hlimit : rest.length < limit) (hfuel : rest.length < fuel) (hfuel' : rest'.length < fuel') :
    Agrees (fun x y => C.Like x.1 y.1 ∧ C.Aligned depth stop.minPrec x.2 y.2)
      (operators engine engine.host (expression engine engine.host) stop fuel lhs rest)
      (operators engine engine.host (expression engine engine.host) stop fuel' lhs' rest') := by
  induction fuel generalizing fuel' lhs lhs' rest rest' with
  | zero => omega
  | succ fuel ih =>
    cases fuel' with
    | zero => omega
    | succ fuel' =>
      obtain ⟨bound, hs⟩ := hs
      have hskip : C.Flush depth bound (skipSpace rest) (skipSpace rest') := L.flush hs
      have hle := (skipSpace_suffix rest).length_le
      have hle' := (skipSpace_suffix rest').length_le
      rw [operators_succ, operators_succ, ← L.terminator hstop hskip]
      generalize skipSpace rest = place at hskip hle ⊢
      generalize skipSpace rest' = place' at hskip hle' ⊢
      split
      · rename_i hends
        exact .pure ⟨hlhs, L.tight (L.halted hstop hskip hends) stop.minPrec⟩
      · rename_i hgoes
        have hgoes : atTerminator engine.dictionary stop place = false := by simpa using hgoes
        have hnext : Agrees
            (fun x y => C.SameFound depth x y ∧
              (x = none → C.Aligned depth stop.minPrec place place'))
            (following engine stop lhs place) (following engine stop lhs' place') := by
          by_cases hopen : C.Aligned depth 0 place place'
          · cases place with
            | nil => cases hgoes
            | cons t v =>
              refine (following_agrees L h hinner hlhs hstop ⟨hopen, hskip.left, hskip.right⟩
                (by omega)).mono ?_
              intro x y hsame
              exact ⟨hsame, fun _ => L.tight hopen stop.minPrec⟩
          · exact L.pending hinner hstop hskip hgoes hopen (by omega) hlhs
        refine (hnext.with_each (following_advanced h stop lhs place)
          (following_advanced h stop lhs' place')).bind ?_
        rintro x y ⟨⟨hsame, hstay⟩, hout, hout'⟩
        cases hsame with
        | none => exact .pure ⟨hlhs, hstay rfl⟩
        | some hsame =>
          -- something was read in both formulas: the loop goes on behind it
          have hlt := (hout _ rfl).2.2
          have hlt' := (hout' _ rfl).2.2
          exact ih hsame.1 hsame.2 (by omega) (by omega) (by omega)

/-! ### What no entry claims -/

theorem group_agrees (L : C.Lockstep engine) (hinner : C.NestedAgree engine limit)
    {v v' : List Token} (hs : C.Flush depth 0 (.groupStart :: v) (.groupStart :: v'))
    (hlimit : v.length < limit) :
    Agrees (C.SameRead depth)
      (group engine engine.host (expression engine engine.host) (.groupStart :: v))
      (group engine engine.host (expression engine engine.host) (.groupStart :: v')) := by
  rw [group, group]
  refine (hinner _ _ _ _ stops_default (L.group hs) hlimit).bind ?_
  rintro ⟨body, rest⟩ ⟨body', rest'⟩ ⟨hbody, (hrest : C.Aligned (depth + 1) 0 rest rest'), -⟩
  have hskip : C.Flush (depth + 1) 0 (skipSpace rest) (skipSpace rest') := L.flush hrest
  dsimp only at hbody ⊢
  refine ite_next_agrees isGroupEnd_iff (L.groupEnd hskip) ?_
    (errorAt_read L _ none hs.behind ⟨0, L.outward hskip.aligned⟩)
  intro _ _ hnext
  cases hbody with
  | none => exact build_read L "Sequence" .nil ⟨0, hnext⟩
  | some hbody => exact .pure ⟨hbody, 0, hnext⟩

theorem letter_agrees (L : C.Lockstep engine) (c : Char) {t : Token} {v v' : List Token}
    (hs : C.Flush depth 0 (t :: v) (t :: v')) (hnext : C.Behind depth v v') :
    Agrees (C.SameRead depth) (letter engine engine.host c (t :: v))
      (letter engine engine.host c (t :: v')) := by
  unfold letter
  dsimp only [List.drop_one, List.tail_cons]
  split
  · exact errorAt_read L _ _ hs.behind hnext
  · exact .pure ⟨L.like.refl _, hnext⟩

theorem unknownCommand_agrees (L : C.Lockstep engine) (name : String) {v v' : List Token}
    (hs : C.Flush depth 0 (.command name :: v) (.command name :: v'))
    (hnext : C.Behind depth v v') :
    Agrees (C.SameRead depth) (unknownCommand engine engine.host name (.command name :: v))
      (unknownCommand engine engine.host name (.command name :: v')) := by
  obtain ⟨hgroup, hskip⟩ := L.arguments hs
  unfold unknownCommand
  simp only [List.drop_one, List.tail_cons, ← hgroup]
  split
  · exact .pure ⟨L.like.refl _, hnext⟩
  · exact errorAt_read L _ _ hs.behind hskip

theorem unknownLeft_agrees (L : C.Lockstep engine) {t : Token} {v v' : List Token}
    (hs : C.Flush depth 0 (t :: v) (t :: v')) (ht : t.isCommand "\\left" = true) :
    Agrees (C.SameRead depth) (unknownLeft engine.host (t :: v))
      (unknownLeft engine.host (t :: v')) := by
  obtain ⟨hinside, hafter⟩ := L.left hs ht
  refine (errorAt_agrees L _ _ hs.behind hinside).bind ?_
  intro e e' he
  exact .pure ⟨he, hafter⟩

theorem blockBody_agrees (L : C.Lockstep engine) (h : engine.Accepted)
    (hinner : C.NestedAgree engine limit) {entry : Entry Unit}
    (hentry : entry ∈ engine.dictionary.entries) (hs : C.Aligned depth 0 rest rest')
    (hlimit : rest.length < limit) :
    Agrees (C.SameResult depth)
      (blockBody engine engine.host (expression engine engine.host) entry rest)
      (blockBody engine engine.host (expression engine engine.host) entry rest') := by
  unfold blockBody
  cases hparse : entry.parse with
  | custom handler =>
    have hscript := L.script entry hentry handler hparse none none {} .none stops_default
    exact runScript_agrees L h hinner hscript hs hlimit .nil (by simp)
  | _ =>
    dsimp only
    cases entry.head? with
    | none => exact .pure ⟨.none, 0, hs⟩
    | some head =>
      refine (tabular_agrees L h hinner hs hlimit).bind ?_
      rintro ⟨table, after⟩ ⟨table', after'⟩ ⟨htable, hafter⟩
      refine (build_agrees L head (.cons htable .nil)).bind ?_
      intro e e' he
      exact .pure ⟨.some he, 0, hafter⟩

theorem blockEnd_agrees (L : C.Lockstep engine) (hblocks : C.Blocks) (name : String)
    (hs : C.Behind depth s s') {body body' : Option Expr} (hbody : Option.Rel C.Like body body')
    (h : C.Behind depth rest rest') :
    Agrees (C.SameRead depth) (blockEnd engine.host name s body rest)
      (blockEnd engine.host name s' body' rest') := by
  obtain ⟨bound, h⟩ := h
  have hskip : C.Flush depth 0 (skipSpace rest) (skipSpace rest') :=
    L.flush (hblocks.loose bound _ _ _ h)
  have hend := hblocks.close name hskip
  unfold blockEnd
  generalize environmentEnd? name (skipSpace rest) = found at hend ⊢
  generalize environmentEnd? name (skipSpace rest') = found' at hend ⊢
  cases hend with
  | none => exact errorAt_read L _ _ hs ⟨0, hblocks.skip hskip.aligned⟩
  | some hafter =>
    cases hbody with
    | none => exact errorAt_read L _ _ hs ⟨0, hafter⟩
    | some hbody => exact .pure ⟨hbody, 0, hafter⟩

theorem environment_agrees (L : C.Lockstep engine) (h : engine.Accepted)
    (hinner : C.NestedAgree engine limit) {t : Token} (ht : t.isCommand "\\begin" = true)
    {v v' : List Token} (hs : C.Flush depth 0 (t :: v) (t :: v')) (hlimit : v.length < limit) :
    Agrees (C.SameRead depth)
      (environment engine engine.host (expression engine engine.host) (t :: v))
      (environment engine engine.host (expression engine engine.host) (t :: v')) := by
  have hblocks := L.blocks hs ht
  obtain ⟨hname, hafter⟩ := hblocks.name hs.aligned ht
  have hle := (groupText_suffix v).length_le
  unfold environment
  simp only [List.drop_one, List.tail_cons]
  generalize groupText v = found at hname hafter hle ⊢
  generalize groupText v' = found' at hname hafter ⊢
  obtain ⟨name, after⟩ := found
  obtain ⟨name', after'⟩ := found'
  cases hname
  cases name with
  | none => exact errorAt_read L _ _ hs.behind ⟨0, hafter⟩
  | some name =>
    dsimp only at hafter hle ⊢
    cases hentry : engine.dictionary.environment? name with
    | none => exact errorAt_read L _ _ hs.behind ⟨0, hblocks.skip hafter⟩
    | some entry =>
      refine (blockBody_agrees L h hinner (h.environment_mem hentry) hafter
        (Nat.lt_of_le_of_lt hle hlimit)).bind ?_
      rintro ⟨body, rest⟩ ⟨body', rest'⟩ ⟨hbody, hrest⟩
      exact blockEnd_agrees L hblocks name hs.behind hbody hrest

/-- What starts with a token that is the same in both formulas and no notation claims. -/
theorem unclaimed_agrees (L : C.Lockstep engine) (h : engine.Accepted)
    (hinner : C.NestedAgree engine limit) {t : Token} {v v' : List Token}
    (hs : C.Flush depth 0 (t :: v) (t :: v')) (ht : isBoundary t = false)
    (hlimit : v.length < limit) :
    Agrees (C.SameFound depth)
      (unclaimed engine engine.host (expression engine engine.host) t (t :: v))
      (unclaimed engine engine.host (expression engine engine.host) t (t :: v')) := by
  have hnext := L.next hs ht
  have hsome : ∀ {x y : Id (Expr × List Token)}, Agrees (C.SameRead depth) x y →
      Agrees (C.SameFound depth) (some <$> x) (some <$> y) := fun h =>
    h.map fun _ _ hread => .some hread
  have hoperator := L.atOperator hs
  have hstray : Agrees (C.SameFound depth)
      (if atOperator engine.dictionary (t :: v) then pure none
      else do
        let e ← errorAt engine.host .unexpectedToken none (t :: v) ((t :: v).drop 1)
        pure (some (e, (t :: v).drop 1)))
      (if atOperator engine.dictionary (t :: v') then pure none
      else do
        let e ← errorAt engine.host .unexpectedToken none (t :: v') ((t :: v').drop 1)
        pure (some (e, (t :: v').drop 1))) := by
    rw [← hoperator]
    split
    · exact .pure .none
    · refine (errorAt_agrees L _ _ hs.behind hnext).bind ?_
      intro e e' he
      exact .pure (.some ⟨he, hnext⟩)
  unfold unclaimed
  by_cases hbegin : t.isCommand "\\begin" = true
  · simp only [if_pos hbegin]
    exact hsome (environment_agrees L h hinner hbegin hs hlimit)
  simp only [if_neg hbegin]
  by_cases hleft : t.isCommand "\\left" = true
  · simp only [if_pos hleft]
    exact hsome (unknownLeft_agrees L hs hleft)
  simp only [if_neg hleft]
  cases t with
  | groupStart => exact hsome (group_agrees L hinner hs hlimit)
  | char c =>
    dsimp only
    split
    · rename_i hdigit
      obtain ⟨hvalue, hafter⟩ := L.numeral hs hdigit
      rw [hvalue]
      exact .pure (.some ⟨L.like.refl _, hafter⟩)
    · split
      · exact hsome (letter_agrees L c hs hnext)
      · exact hstray
  | command name =>
    dsimp only
    rw [← hoperator]
    split
    · exact .pure .none
    · exact hsome (unknownCommand_agrees L name hs hnext)
  | groupEnd => exact hstray
  | space => exact hstray

/-! ### Expressions -/

/-- What the rule of a symbol or of an operator in front reads is accepted. -/
theorem firstAccepted_claimed (engine : Engine Unit) (stop : Terminator) (start : List Token)
    {found : TriggerMatch Unit} (others : List (TriggerMatch Unit))
    (hrule : found.entry.isCustom = false) (hhead : found.entry.head?.isSome = true)
    (hkind : found.entry.kind = .symbol ∨ found.entry.kind = .prefixOp) :
    ∃ result, firstAccepted engine engine.host (expression engine engine.host) none stop start
      (found :: others) = pure (some result) := by
  obtain ⟨head, hhead⟩ := Option.isSome_iff_exists.mp hhead
  rw [firstAccepted_cons, accept_eq_byKind hrule]
  rcases hkind with hkind | hkind
  · simp only [byKind, hhead, hkind, pure_bind]
    exact ⟨_, rfl⟩
  · simp only [byKind, hhead, hkind, orMissing_eq, build_eq, pure_bind]
    exact ⟨_, rfl⟩

/-- A command that a notation claims is no expression by itself. -/
theorem unclaimed_of_plain {t : Token} (ht : Plain engine t) {v : List Token}
    (hoperator : atOperator engine.dictionary (t :: v) = true) :
    unclaimed engine engine.host (expression engine engine.host) t (t :: v) = pure none := by
  have hbegin : ¬ t.isCommand "\\begin" = true := ht.not_command (by simp)
  have hleft : ¬ t.isCommand "\\left" = true := ht.not_command (by simp)
  obtain ⟨name, rfl, -⟩ := ht.command
  unfold unclaimed
  simp only [if_neg hbegin, if_neg hleft, hoperator, if_true]

/-- If the notation of a command is not accepted, no expression starts with the command. -/
theorem unclaimed_of_claimed {t : Token} {v : List Token} (hplain : Plain engine t)
    (hclaimed : Claimed engine (t :: v))
    (hfirst : firstAccepted engine engine.host (expression engine engine.host) none stop (t :: v)
      (engine.dictionary.candidates (t :: v) [.symbol, .prefixOp, .matchfix]) = pure none) :
    unclaimed engine engine.host (expression engine engine.host) t (t :: v) = pure none := by
  rcases hclaimed with hoperator | ⟨found, others, hfound, hrule, hhead, hkind⟩
  · exact unclaimed_of_plain hplain hoperator
  · obtain ⟨result, hresult⟩ := firstAccepted_claimed engine stop (t :: v) others hrule hhead hkind
    rw [hfound, hresult] at hfirst
    cases hfirst

theorem primary_agrees (L : C.Lockstep engine) (h : engine.Accepted)
    (hinner : C.NestedAgree engine limit) (hstop : C.Stops stop)
    (hs : C.Aligned depth 0 rest rest') (hlimit : rest.length ≤ limit) :
    Agrees (fun x y => C.SameResult depth x y ∧ (x.1 = none → C.Flush depth 0 x.2 y.2))
      (primary engine engine.host (expression engine engine.host) stop rest)
      (primary engine engine.host (expression engine engine.host) stop rest') := by
  have hskip : C.Flush depth 0 (skipSpace rest) (skipSpace rest') := L.flush hs
  have hle : (skipSpace rest).length ≤ limit :=
    Nat.le_trans (skipSpace_suffix rest).length_le hlimit
  have hterminator := L.terminator hstop hskip
  rw [primary, primary]
  dsimp only
  rw [← hterminator]
  generalize skipSpace rest = place at hskip hle ⊢
  generalize skipSpace rest' = place' at hskip ⊢
  have hnone : Agrees (fun x y => C.SameResult depth x y ∧ (x.1 = none → C.Flush depth 0 x.2 y.2))
      (pure (none, place)) (pure (none, place')) :=
    .pure ⟨⟨.none, hskip.behind⟩, fun _ => hskip⟩
  have hsome : ∀ {e e' : Expr} {after after' : List Token},
      C.SameRead depth (e, after) (e', after') →
      Agrees (fun x y => C.SameResult depth x y ∧ (x.1 = none → C.Flush depth 0 x.2 y.2))
        (pure (some e, after)) (pure (some e', after')) := by
    intro e e' after after' hread
    exact .pure ⟨⟨.some hread.1, hread.2⟩, fun h => absurd h (Option.some_ne_none _)⟩
  by_cases hends : atTerminator engine.dictionary stop place = true
  · rw [if_pos hends, if_pos hends]
    exact hnone
  rw [if_neg hends, if_neg hends]
  cases place with
  | nil => exact absurd rfl hends
  | cons t v =>
    obtain ⟨t', v', rfl, hstart⟩ := L.start hskip
    have hboundary : isBoundary t = false := by
      cases hboundary : isBoundary t with
      | false => rfl
      | true => exact absurd (by simp [atTerminator, hboundary]) hends
    refine ((firstAccepted_agrees L h hinner .none hstop hskip.behind
      (L.candidates [.symbol, .prefixOp, .matchfix] hskip) (candidates_bounded h hle)).with_each
      (P := fun x => firstAccepted engine engine.host (expression engine engine.host) none stop
        (t :: v) (engine.dictionary.candidates (t :: v) [.symbol, .prefixOp, .matchfix]) = pure x)
      (Q := fun x => firstAccepted engine engine.host (expression engine engine.host) none stop
        (t' :: v') (engine.dictionary.candidates (t' :: v') [.symbol, .prefixOp, .matchfix]) =
          pure x) rfl rfl).bind ?_
    rintro result result' ⟨hresult, hfirst, hfirst'⟩
    cases hresult with
    | some hread => exact hsome hread
    | none =>
      dsimp only
      rcases hstart with rfl | ⟨⟨hplain, hclaimed⟩, hplain', hclaimed'⟩
      · refine (unclaimed_agrees L h hinner hskip hboundary hle).bind ?_
        intro result result' hresult
        cases hresult with
        | none => exact hnone
        | some hread => exact hsome hread
      · -- the two commands are claimed by their notations, so no expression starts with them
        rw [unclaimed_of_claimed hplain hclaimed hfirst,
          unclaimed_of_claimed hplain' hclaimed' hfirst']
        exact hnone

theorem expression_agrees (L : C.Lockstep engine) (h : engine.Accepted) (limit : Nat) :
    C.NestedAgree engine limit := by
  induction limit with
  | zero => exact fun _ _ _ _ _ _ hlt => absurd hlt (Nat.not_lt_zero _)
  | succ limit ih =>
    intro depth stop s s' hstop hs hlt
    have hsettled := fun place : List Token =>
      (primary_settles (setting_accepted h) (nested_self h place.length) stop
        (Nat.le_refl place.length)).2
    have hprimary := (primary_agrees L h ih hstop hs (Nat.le_of_lt_succ hlt)).with_left (hsettled s)
    rw [expression_eq h, expression_eq h]
    generalize primary engine engine.host (expression engine engine.host) stop s = x at hprimary ⊢
    generalize primary engine engine.host (expression engine engine.host) stop s' = x'
      at hprimary ⊢
    obtain ⟨lhs, after⟩ := x
    obtain ⟨lhs', after'⟩ := x'
    obtain ⟨⟨⟨hlhs, hafter⟩, hflush⟩, hout⟩ := hprimary
    cases hlhs with
    | none =>
      have hopen : C.Flush depth 0 after after' := hflush rfl
      exact .pure ⟨.none, L.tight hopen.aligned _, fun _ => hopen⟩
    | some hlhs =>
      have hshort : after.length < s.length := hout.2.2
      refine (operators_agrees L h ih hstop hlhs hafter
        (Nat.lt_of_lt_of_le hshort (Nat.le_of_lt_succ hlt)) (Nat.lt_succ_self _)
        (Nat.lt_succ_self _)).bind ?_
      rintro ⟨e, rest⟩ ⟨e', rest'⟩ ⟨he, hrest⟩
      exact .pure ⟨.some he, hrest, fun h => absurd h (Option.some_ne_none _)⟩

/-! ### Whole formulas -/

theorem parseTokens_eq (h : engine.Accepted) (tokens : List Token) :
    engine.parseTokens tokens =
      (Id.run (root engine engine.host (expression engine engine.host) tokens)).1 := by
  have hroot := (root_settles (setting_accepted h) (nested_expression h (tokens.length + 1))
    (Nat.lt_succ_self tokens.length)).1
  rw [hroot]
  rfl

/-- Formulas that correspond and end together are read as the same expression. -/
theorem Lockstep.parseTokens (L : C.Lockstep engine) (hwhole : C.Whole) (h : engine.Accepted)
    (hs : C.Aligned 0 0 s s') : C.Like (engine.parseTokens s) (engine.parseTokens s') := by
  rw [parseTokens_eq h, parseTokens_eq h]
  exact (root_agrees L hwhole h (expression_agrees L h (s.length + 1)) hs (Nat.lt_succ_self _)).1

end Correspondence

end Reader

end Formula
