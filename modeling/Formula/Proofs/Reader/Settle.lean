import Formula.Proofs.Dictionary.Candidates
import Formula.Proofs.Normalize
import Formula.Reader

/-!
  **What every reading does.**

  The functions of the reader are programs over any host.  `Settles x y P` says that such a program
  `x` simply has the result of the plain run `y`, whatever its host would do if a bound on the
  steps were used up or tokens were asked for that are not there, and that the result satisfies
  `P`.  It is proved once for each function of the reader, in the order of their definitions, from
  the same statement about the expressions nested in it, which start at places with fewer tokens
  left.

  The results are described by an `Outcome`: an expression that was read satisfies a given
  property and ends behind the place where it started; where there is none, only blanks were
  passed.  The property is any `Invariant`: it holds of what the reader itself makes, is kept by
  the calls that it builds, and is kept by the scripts of the custom notations.
-/

namespace Formula

variable {m : Type → Type} [Monad m] [LawfulMonad m]

/-! ### Programs that have a plain result -/

/-- The program does nothing but give the result of the plain run, and that satisfies `P`. -/
def Settles {β : Type} (x : m β) (y : Id β) (P : β → Prop) : Prop :=
  x = pure (Id.run y) ∧ P (Id.run y)

namespace Settles

variable {β γ : Type} {x : m β} {y : Id β} {P Q : β → Prop}

omit [LawfulMonad m] in
theorem pure {b : β} (h : P b) : Settles (m := m) (pure b) (pure b) P := ⟨rfl, h⟩

theorem bind {f : β → m γ} {g : β → Id γ} {R : γ → Prop} (hx : Settles x y P)
    (hf : ∀ b, P b → Settles (f b) (g b) R) : Settles (x >>= f) (y >>= g) R := by
  obtain ⟨rfl, hP⟩ := hx
  rw [pure_bind]
  exact hf _ hP

theorem map {f : β → γ} {R : γ → Prop} (hx : Settles x y P) (hf : ∀ b, P b → R (f b)) :
    Settles (f <$> x) (Pure.pure (f (Id.run y))) R := by
  obtain ⟨rfl, hP⟩ := hx
  exact ⟨map_pure f _, hf _ hP⟩

omit [LawfulMonad m] in
theorem mono (hx : Settles x y P) (h : ∀ b, P b → Q b) : Settles x y Q := ⟨hx.1, h _ hx.2⟩

end Settles

/-- The host answers as the engine does.  What it does when a bound is used up, or when tokens are
    asked for that are not there, is left open. -/
structure Host.Answers (host : Host m Unit) (engine : Engine Unit) : Prop where
  fresh : host.fresh = pure ()
  domain : ∀ e, host.domain e = pure (engine.domain e)
  compatible : ∀ e l, host.compatible e l = pure (engine.isCompatible e (.literal l))

theorem Engine.host_answers (engine : Engine Unit) : engine.host.Answers engine where
  fresh := rfl
  domain _ := rfl
  compatible _ _ := rfl

namespace Reader

/-! ### Properties of expressions that reading keeps -/

/-- An expression with the property was read and ends behind its start, or only blanks were
    passed. -/
def Outcome (Good : Expr → Prop) (start : List Token) : Option Expr × List Token → Prop
  | (some e, rest) => Good e ∧ Past start rest
  | (none, rest) => ∃ gap, start = gap ++ rest ∧ ∀ t ∈ gap, isSpacing t = true

/-- The heads of the calls that are built by the rules of the reader, scripts apart. -/
def Builds (engine : Engine Unit) (head : String) : Prop :=
  head = "List" ∨ head = "Sequence" ∨ engine.options.invisibleOperator = some head ∨
    ∃ entry ∈ engine.dictionary.entries, entry.isCustom = false ∧ entry.head? = some head

/-- The script ends with an expression of the property if all that it is given has it. -/
def ScriptKeeps (engine : Engine Unit) (Good : Expr → Prop) : Script Unit → Prop
  | .done result => ∀ e, result = some e → Good e
  | .expression _ next =>
    ∀ result : Option Expr, (∀ e, result = some e → Good e) →
      ScriptKeeps engine Good (next result)
  | .tabular next => ∀ e, Good e → ScriptKeeps engine Good (next e)
  | .root next => ∀ e, Good e → ScriptKeeps engine Good (next e)
  | .skipSpace next => ScriptKeeps engine Good next
  | .peek next => ∀ token, ScriptKeeps engine Good (next token)
  | .checkpoint next => ScriptKeeps engine Good next
  | .rewind _ next => ScriptKeeps engine Good next
  | .build head ops next => ScriptKeeps engine Good (next (engine.call head ops))
  | .domain e next => ScriptKeeps engine Good (next (engine.domain e))
  | .compatible e l next =>
    ScriptKeeps engine Good (next (engine.isCompatible e (.literal l)))

/-- A property of expressions that reading keeps. -/
structure Invariant (engine : Engine Unit) (Good : Expr → Prop) : Prop where
  number : ∀ value, Good (.number value)
  symbol : ∀ name, Good (.symbol name)
  error : ∀ code argument source, Good (Tree.errorCall code argument source)
  elements : ∀ e, Good e → ∀ op ∈ e.ops, Good op
  build : ∀ head, Builds engine head → ∀ ops, (∀ op ∈ ops, Good op) → Good (engine.call head ops)
  script : ∀ entry ∈ engine.dictionary.entries, ∀ handler, entry.parse = .custom handler →
    ∀ lhs stop, (∀ e, lhs = some e → Good e) → ScriptKeeps engine Good (handler lhs stop)

/-- What one reading is given: a host that answers for the engine, a dictionary whose tables hold
    what its entries say, and a property that is kept. -/
structure Setting (engine : Engine Unit) (host : Host m Unit) (Good : Expr → Prop) : Prop where
  answers : host.Answers engine
  indexed : Dictionary.Indexed engine.dictionary.entries engine.dictionary
  keeps : Invariant engine Good

variable {engine : Engine Unit} {host : Host m Unit} {Good : Expr → Prop}

/-! ### What the reader makes -/

theorem build_settles (s : Setting engine host Good) {head : String} {ops : List Expr}
    (hhead : Builds engine head) (hops : ∀ op ∈ ops, Good op) :
    Settles (build engine host head ops) (build engine engine.host head ops) Good := by
  have hm : build engine host head ops = pure (engine.call head ops) := by
    rw [build, s.answers.fresh, Engine.function_eq_pure]
  have hid : build engine engine.host head ops = pure (engine.call head ops) :=
    Engine.function_eq_pure engine head ops
  rw [hid]
  exact ⟨hm, s.keeps.build head hhead ops hops⟩

theorem errorAt_settles (s : Setting engine host Good) (code : ErrorCode)
    (argument : Option String) {start rest : List Token} (h : Past start rest) :
    Settles (errorAt host code argument start rest)
      (errorAt engine.host code argument start rest) Good := by
  have hm := Tree.error_eq_pure (m := m) code argument
    (some (Latex.ofTokens (between start rest)))
  have hid := Tree.error_eq_pure (m := Id) code argument
    (some (Latex.ofTokens (between start rest)))
  -- the place lies behind the start, so there is a source
  have horder : ¬ start.length < rest.length := Nat.not_lt_of_gt h.2
  unfold errorAt
  simp only [if_neg horder]
  rw [s.answers.fresh, engine.host_answers.fresh, hm, hid]
  exact .pure (s.keeps.error _ _ _)

theorem orMissing_settles (s : Setting engine host Good) {operand : Option Expr}
    (h : ∀ e, operand = some e → Good e) :
    Settles (orMissing host operand) (orMissing engine.host operand) Good := by
  cases operand with
  | some e => exact .pure (h e rfl)
  | none =>
    have hm := Tree.error_eq_pure (m := m) .missing none none
    have hid := Tree.error_eq_pure (m := Id) .missing none none
    unfold orMissing missing
    rw [s.answers.fresh, engine.host_answers.fresh, hm, hid]
    exact .pure (s.keeps.error _ _ _)

/-! ### Nested expressions -/

/-- An outcome passes no token twice: it ends at the start or behind it. -/
theorem Outcome.suffix {start : List Token} {result : Option Expr × List Token}
    (h : Outcome Good start result) : result.2 <:+ start := by
  obtain ⟨result, rest⟩ := result
  cases result with
  | some e => exact h.2.1
  | none =>
    obtain ⟨gap, rfl, -⟩ := h
    exact List.suffix_append gap rest

theorem Outcome.good {start : List Token} {result : Option Expr × List Token}
    (h : Outcome Good start result) : ∀ e, result.1 = some e → Good e := by
  obtain ⟨result, rest⟩ := result
  rintro e rfl
  exact h.1

/-- Expressions nested at places with fewer than `bound` tokens left are read as they should. -/
def Nested (Good : Expr → Prop) (bound : Nat)
    (innerM : Terminator → List Token → m (Option Expr × List Token))
    (inner : Terminator → List Token → Id (Option Expr × List Token)) : Prop :=
  ∀ stop rest, rest.length < bound →
    Settles (innerM stop rest) (inner stop rest) (Outcome Good rest)

variable {bound : Nat} {innerM : Terminator → List Token → m (Option Expr × List Token)}
  {inner : Terminator → List Token → Id (Option Expr × List Token)}

/-! ### Tables -/

/-- Expressions of the property, and a place that is not before the start. -/
def Collected (Good : Expr → Prop) (start : List Token) (result : List Expr × List Token) : Prop :=
  (∀ e ∈ result.1, Good e) ∧ result.2 <:+ start

theorem good_nil : ∀ x ∈ ([] : List Expr), Good x := by simp

theorem good_append {row : List Expr} {e : Expr} (hrow : ∀ x ∈ row, Good x) (he : Good e) :
    ∀ x ∈ row ++ [e], Good x := by
  intro x hx
  rcases List.mem_append.mp hx with hx | hx
  · exact hrow x hx
  · rw [List.mem_singleton.mp hx]
    exact he

/-- Where a separator stands something is left to read behind it. -/
theorem nextIs_past {test : Token → Bool} {rest : List Token} (h : nextIs test rest = true) :
    Past rest (rest.drop 1) := by
  apply Past.drop_one
  rintro rfl
  cases h

theorem cells_settles (s : Setting engine host Good) (hinner : Nested Good bound innerM inner)
    {fuel fuel' : Nat} {row : List Expr} {rest : List Token} (hrow : ∀ e ∈ row, Good e)
    (hbound : rest.length < bound) (hfuel : rest.length < fuel) (hfuel' : rest.length < fuel') :
    Settles (cells host innerM fuel row rest) (cells engine.host inner fuel' row rest)
      (Collected Good rest) := by
  -- each round passes a separator, so the bound on the rounds outlasts the tokens
  induction fuel generalizing fuel' row rest with
  | zero => omega
  | succ fuel ih =>
    cases fuel' with
    | zero => omega
    | succ fuel' =>
      rw [cells, cells]
      refine (hinner {} rest hbound).bind ?_
      rintro ⟨cell, after⟩ hcell
      have hafter : skipSpace after <:+ rest := (skipSpace_suffix after).trans hcell.suffix
      have hgood : Good (cell.getD (.symbol "Nothing")) := by
        cases cell with
        | some e => exact hcell.1
        | none => exact s.keeps.symbol "Nothing"
      have hrow' : ∀ e ∈ (if cell.isSome || nextIs (Token.isChar '&') (skipSpace after) ||
          !row.isEmpty then row ++ [cell.getD (.symbol "Nothing")] else row), Good e := by
        split
        · exact good_append hrow hgood
        · exact hrow
      by_cases hnext : nextIs (Token.isChar '&') (skipSpace after) = true
      · simp only [if_pos hnext]
        have hpast := Past.after_suffix hafter (nextIs_past hnext)
        have hlt := hpast.2
        refine (ih hrow' (by omega) (by omega) (by omega)).mono ?_
        intro result hresult
        exact ⟨hresult.1, hresult.2.trans hpast.1⟩
      · simp only [if_neg hnext]
        exact .pure ⟨hrow', hafter⟩

theorem rows_settles (s : Setting engine host Good) (hinner : Nested Good bound innerM inner)
    {fuel fuel' : Nat} {table : List Expr} {rest : List Token} (htable : ∀ e ∈ table, Good e)
    (hbound : rest.length < bound) (hfuel : rest.length < fuel) (hfuel' : rest.length < fuel') :
    Settles (rows engine host innerM fuel table rest)
      (rows engine engine.host inner fuel' table rest) (Collected Good rest) := by
  induction fuel generalizing fuel' table rest with
  | zero => omega
  | succ fuel ih =>
    cases fuel' with
    | zero => omega
    | succ fuel' =>
      rw [rows, rows]
      refine (cells_settles s hinner good_nil hbound (Nat.lt_succ_self _)
        (Nat.lt_succ_self _)).bind ?_
      rintro ⟨row, after⟩ ⟨hrow, (hafter : after <:+ rest)⟩
      have hloop : ∀ table' : List Expr, (∀ e ∈ table', Good e) →
          Settles
            (if nextIs (Token.isCommand "\\\\") after then
              rows engine host innerM fuel table' (after.drop 1) else pure (table', after))
            (if nextIs (Token.isCommand "\\\\") after then
              rows engine engine.host inner fuel' table' (after.drop 1) else pure (table', after))
            (Collected Good rest) := by
        intro table' htable'
        by_cases hnext : nextIs (Token.isCommand "\\\\") after = true
        · simp only [if_pos hnext]
          have hpast := Past.after_suffix hafter (nextIs_past hnext)
          have hlt := hpast.2
          refine (ih htable' (by omega) (by omega) (by omega)).mono ?_
          intro result hresult
          exact ⟨hresult.1, hresult.2.trans hpast.1⟩
        · simp only [if_neg hnext]
          exact .pure ⟨htable', hafter⟩
      by_cases hempty : row.isEmpty = true
      · simp only [if_pos hempty, pure_bind]
        exact hloop table htable
      · simp only [if_neg hempty]
        refine (build_settles s (Or.inl rfl) hrow).bind ?_
        intro list hlist
        simp only [pure_bind]
        exact hloop _ (good_append htable hlist)

theorem tabular_settles (s : Setting engine host Good) (hinner : Nested Good bound innerM inner)
    {rest : List Token} (hbound : rest.length < bound) :
    Settles (tabular engine host innerM rest) (tabular engine engine.host inner rest)
      (fun result => Good result.1 ∧ result.2 <:+ rest) := by
  rw [tabular, tabular]
  refine (rows_settles s hinner good_nil hbound (Nat.lt_succ_self _)
    (Nat.lt_succ_self _)).bind ?_
  rintro ⟨table, after⟩ ⟨htable, hafter⟩
  refine (build_settles s (Or.inl rfl) htable).bind ?_
  intro list hlist
  exact .pure ⟨hlist, hafter⟩

/-- Where no blank stands the place of an outcome without an expression is the start. -/
theorem Outcome.eq_of_none {rest after : List Token}
    (h : Outcome Good (skipSpace rest) (none, after)) : after = skipSpace rest := by
  obtain ⟨gap, hgap, hspacing⟩ := h
  cases gap with
  | nil => exact hgap.symm
  | cons t gap =>
    have hstart := skipSpace_skipSpace rest
    rw [hgap, List.cons_append, skipSpace, List.dropWhile_cons,
      if_pos (hspacing t (by simp))] at hstart
    have hlong := congrArg List.length hstart
    have hshort := (skipSpace_suffix (gap ++ after)).length_le
    rw [skipSpace] at hshort
    simp only [List.length_cons] at hlong
    omega

/-! ### Everything up to the end -/

theorem leftover_settles (s : Setting engine host Good) {start : List Token} (h : start ≠ []) :
    Settles (leftover engine host start) (leftover engine engine.host start)
      (fun result => Good result.1 ∧ Past start result.2) := by
  cases start with
  | nil => exact absurd rfl h
  | cons token after =>
    have htail : Past (token :: after) after := Past.tail token after
    have hdone : ∀ (code : ErrorCode) (rest : List Token), Past (token :: after) rest →
        Settles
          (do
            let e ← errorAt host code none (token :: after) rest
            pure (e, rest))
          (do
            let e ← errorAt engine.host code none (token :: after) rest
            pure (e, rest))
          (fun result => Good result.1 ∧ Past (token :: after) result.2) := by
      intro code rest hrest
      refine (errorAt_settles s code none hrest).bind ?_
      intro e he
      exact .pure ⟨he, hrest⟩
    rw [leftover, leftover]
    split
    · rename_i code rest heq
      apply hdone
      split at heq
      · cases heq
        exact htail.of_suffix (skipDelimiter_suffix after)
      · split at heq
        · cases heq
          exact htail.of_suffix (groupText_suffix after)
        · split at heq
          · cases heq
            exact htail
          · split at heq
            · rename_i found hfound
              cases heq
              exact (s.indexed.candidate (List.mem_of_head? hfound)).2.2
            · cases heq
              exact htail

theorem parts_settles (s : Setting engine host Good) (hinner : Nested Good bound innerM inner)
    {fuel fuel' : Nat} {found : List Expr} {rest : List Token} (hfound : ∀ e ∈ found, Good e)
    (hbound : rest.length < bound) (hfuel : rest.length < fuel) (hfuel' : rest.length < fuel') :
    Settles (parts engine host innerM fuel found rest)
      (parts engine engine.host inner fuel' found rest)
      (fun result => (∀ e ∈ result.1, Good e) ∧ result.2 = []) := by
  induction fuel generalizing fuel' found rest with
  | zero => omega
  | succ fuel ih =>
    cases fuel' with
    | zero => omega
    | succ fuel' =>
      have hskip := (skipSpace_suffix rest).length_le
      rw [parts, parts]
      by_cases hempty : (skipSpace rest).isEmpty = true
      · simp only [if_pos hempty]
        exact .pure ⟨hfound, List.isEmpty_iff.mp hempty⟩
      · simp only [if_neg hempty]
        have hne : skipSpace rest ≠ [] := fun h => hempty (List.isEmpty_iff.mpr h)
        refine (hinner {} (skipSpace rest) (by omega)).bind ?_
        rintro ⟨e | e, after⟩ hresult
        · -- no expression starts here, and no blank stands here either
          have hafter : after = skipSpace rest := Outcome.eq_of_none hresult
          refine (leftover_settles s (hafter ▸ hne)).bind ?_
          rintro ⟨e, rest'⟩ ⟨he, hpast⟩
          have hlt : rest'.length < after.length := hpast.2
          rw [hafter] at hlt
          show Settles (parts engine host innerM fuel (found ++ [e]) rest')
            (parts engine engine.host inner fuel' (found ++ [e]) rest') _
          exact ih (good_append hfound he) (by omega) (by omega) (by omega)
        · have hlt : after.length < (skipSpace rest).length := hresult.2.2
          exact ih (good_append hfound hresult.1) (by omega) (by omega) (by omega)

theorem root_settles (s : Setting engine host Good) (hinner : Nested Good bound innerM inner)
    {rest : List Token} (hbound : rest.length < bound) :
    Settles (root engine host innerM rest) (root engine engine.host inner rest)
      (fun result => Good result.1 ∧ result.2 = []) := by
  rw [root, root]
  refine (parts_settles s hinner good_nil hbound (Nat.lt_succ_self _)
    (Nat.lt_succ_self _)).bind ?_
  rintro ⟨found, after⟩ ⟨hfound, hafter⟩
  have hcombine : Settles (combine engine host found) (combine engine engine.host found) Good := by
    unfold combine
    split
    · exact .pure (s.keeps.symbol "Nothing")
    · exact .pure (hfound _ (by simp))
    · exact build_settles s (Or.inr (Or.inl rfl)) hfound
  refine hcombine.bind ?_
  intro e he
  exact .pure ⟨he, hafter⟩

/-! ### Scripts -/

theorem runScript_settles (s : Setting engine host Good) (hinner : Nested Good bound innerM inner)
    {script : Script Unit} (hscript : ScriptKeeps engine Good script) {after rest : List Token}
    {saved : List (List Token)} (hbound : after.length < bound) (hrest : rest <:+ after)
    (hsaved : ∀ place ∈ saved, place <:+ after) :
    Settles (runScript engine host innerM script saved rest)
      (runScript engine engine.host inner script saved rest)
      (fun result => (∀ e, result.1 = some e → Good e) ∧ result.2 <:+ after) := by
  induction script generalizing saved rest with
  | done result => exact .pure ⟨hscript, hrest⟩
  | expression stop next ih =>
    rw [runScript, runScript]
    have hle := hrest.length_le
    refine (hinner stop rest (by omega)).bind ?_
    rintro ⟨e, rest'⟩ hresult
    exact ih e (hscript e hresult.good) (hresult.suffix.trans hrest) hsaved
  | tabular next ih =>
    rw [runScript, runScript]
    have hle := hrest.length_le
    refine (tabular_settles s hinner (by omega)).bind ?_
    rintro ⟨e, rest'⟩ ⟨he, hsuffix⟩
    exact ih e (hscript e he) (hsuffix.trans hrest) hsaved
  | root next ih =>
    rw [runScript, runScript]
    have hle := hrest.length_le
    refine (root_settles s hinner (by omega)).bind ?_
    rintro ⟨e, rest'⟩ ⟨he, (hend : rest' = [])⟩
    refine ih e (hscript e he) ?_ hsaved
    rw [hend]
    exact List.nil_suffix
  | skipSpace next ih =>
    rw [runScript, runScript]
    exact ih hscript ((skipSpace_suffix rest).trans hrest) hsaved
  | peek next ih =>
    rw [runScript, runScript]
    exact ih rest.head? (hscript rest.head?) hrest hsaved
  | checkpoint next ih =>
    rw [runScript, runScript]
    refine ih hscript hrest ?_
    intro place hplace
    rcases List.mem_append.mp hplace with hplace | hplace
    · exact hsaved place hplace
    · rw [List.mem_singleton.mp hplace]
      exact hrest
  | rewind place next ih =>
    rw [runScript, runScript]
    refine ih hscript ?_ hsaved
    cases hplace : saved[place]? with
    | none => exact hrest
    | some back => exact hsaved back (List.mem_of_getElem? hplace)
  | build head ops next ih =>
    rw [runScript, runScript]
    have hm : build engine host head ops = pure (engine.call head ops) := by
      rw [build, s.answers.fresh, Engine.function_eq_pure]
    have hid : build engine engine.host head ops = pure (engine.call head ops) :=
      Engine.function_eq_pure engine head ops
    rw [hm, hid, pure_bind, pure_bind]
    exact ih _ hscript hrest hsaved
  | domain e next ih =>
    rw [runScript, runScript, s.answers.domain, pure_bind]
    exact ih _ hscript hrest hsaved
  | compatible e l next ih =>
    rw [runScript, runScript, s.answers.compatible, pure_bind]
    exact ih _ hscript hrest hsaved

/-! ### Notations -/

/-- The expression that was read, if there is one, has the property and ends behind its start. -/
def Advanced (Good : Expr → Prop) (start : List Token) (result : Option (Expr × List Token)) :
    Prop :=
  ∀ found, result = some found → Good found.1 ∧ Past start found.2

theorem advanced_none {start : List Token} : Advanced Good start none := by
  rintro found ⟨⟩

theorem advanced_some {start rest : List Token} {e : Expr} (he : Good e) (h : Past start rest) :
    Advanced Good start (some (e, rest)) := by
  rintro found ⟨rfl⟩
  exact ⟨he, h⟩

theorem matchfix_settles (s : Setting engine host Good) (hinner : Nested Good bound innerM inner)
    {entry : Entry Unit} {head : String} (hhead : Builds engine head) {start after : List Token}
    (hafter : Past start after) (hbound : after.length < bound) :
    Settles (matchfix engine host innerM entry head start after)
      (matchfix engine engine.host inner entry head start after)
      (fun result => Good result.1 ∧ Past start result.2) := by
  rw [matchfix, matchfix]
  refine (hinner _ after hbound).bind ?_
  rintro ⟨body, after'⟩ hbody
  have hskip : skipSpace after' <:+ after := (skipSpace_suffix after').trans hbody.suffix
  dsimp only
  split
  · have hplace := hafter.of_suffix hskip
    refine (errorAt_settles s _ none hplace).bind ?_
    intro e he
    exact .pure ⟨he, hplace⟩
  · rename_i rest heq
    refine (build_settles s hhead ?_).bind ?_
    · cases body with
      | none => simp
      | some body =>
        have hgood := hbody.good body rfl
        dsimp only
        split
        · exact s.keeps.elements body hgood
        · intro op hop
          rw [List.mem_singleton.mp hop]
          exact hgood
    · intro e he
      exact .pure ⟨he, hafter.of_suffix ((matchTokens_suffix heq).1.trans hskip)⟩

/-- The rule of a kind reads the entry, from behind its trigger. -/
theorem byKind_settles (s : Setting engine host Good) (hinner : Nested Good bound innerM inner)
    {entry : Entry Unit} (hentry : entry ∈ engine.dictionary.entries)
    (hrule : entry.isCustom = false) {lhs : Option Expr} (hlhs : ∀ e, lhs = some e → Good e)
    (stop : Terminator) {start after : List Token} (hafter : Past start after)
    (hbound : after.length < bound) :
    Settles (byKind engine host innerM entry lhs stop start after)
      (byKind engine engine.host inner entry lhs stop start after) (Advanced Good start) := by
  cases hhead : entry.head? with
  | none =>
    simp only [byKind, hhead]
    exact .pure advanced_none
  | some head =>
    have hbuilds : Builds engine head := Or.inr (Or.inr (Or.inr ⟨entry, hentry, hrule, hhead⟩))
    cases hkind : entry.kind with
    | symbol =>
      simp only [byKind, hhead, hkind]
      exact .pure (advanced_some (s.keeps.symbol head) hafter)
    | prefixOp =>
      simp only [byKind, hhead, hkind]
      refine (hinner _ after hbound).bind ?_
      rintro ⟨operand, rest⟩ hoperand
      refine (orMissing_settles s hoperand.good).bind ?_
      intro operand' hgood
      refine (build_settles s hbuilds (by simpa using hgood)).bind ?_
      intro e he
      exact .pure (advanced_some he (hafter.of_suffix hoperand.suffix))
    | infixOp =>
      cases lhs with
      | none =>
        simp only [byKind, hhead, hkind]
        exact .pure advanced_none
      | some lhs =>
        simp only [byKind, hhead, hkind]
        refine (hinner _ after hbound).bind ?_
        rintro ⟨rhs, rest⟩ hrhs
        refine (orMissing_settles s hrhs.good).bind ?_
        intro rhs' hgood
        refine (build_settles s hbuilds (by simpa using ⟨hlhs lhs rfl, hgood⟩)).bind ?_
        intro e he
        exact .pure (advanced_some he (hafter.of_suffix hrhs.suffix))
    | postfixOp =>
      cases lhs with
      | none =>
        simp only [byKind, hhead, hkind]
        exact .pure advanced_none
      | some lhs =>
        simp only [byKind, hhead, hkind]
        refine (build_settles s hbuilds (by simpa using hlhs lhs rfl)).bind ?_
        intro e he
        exact .pure (advanced_some he hafter)
    | «matchfix» =>
      simp only [byKind, hhead, hkind]
      refine (matchfix_settles s hinner hbuilds hafter hbound).bind ?_
      rintro ⟨e, rest⟩ ⟨he, hrest⟩
      exact .pure (advanced_some he hrest)
    | environment =>
      simp only [byKind, hhead, hkind]
      exact .pure advanced_none

theorem accept_settles (s : Setting engine host Good) (hinner : Nested Good bound innerM inner)
    {lhs : Option Expr} (hlhs : ∀ e, lhs = some e → Good e) (stop : Terminator)
    {start : List Token} {found : TriggerMatch Unit}
    (hentry : found.entry ∈ engine.dictionary.entries) (hafter : Past start found.after)
    (hbound : found.after.length < bound) :
    Settles (accept engine host innerM lhs stop start found)
      (accept engine engine.host inner lhs stop start found) (Advanced Good start) := by
  have hrule : found.entry.isCustom = false →
      Settles (byKind engine host innerM found.entry lhs stop start found.after)
        (byKind engine engine.host inner found.entry lhs stop start found.after)
        (Advanced Good start) := by
    intro hcustom
    exact byKind_settles s hinner hentry hcustom hlhs stop hafter hbound
  cases hparse : found.entry.parse with
  | custom handler =>
    simp only [accept, hparse]
    refine (runScript_settles s hinner (s.keeps.script _ hentry handler hparse lhs stop hlhs)
      hbound List.suffix_rfl (by simp)).bind ?_
    rintro ⟨result, rest⟩ ⟨hgood, (hrest : rest <:+ found.after)⟩
    refine .pure ?_
    intro pair hpair
    obtain ⟨e, rfl, rfl⟩ := Option.map_eq_some_iff.mp hpair
    exact ⟨hgood e rfl, hafter.of_suffix hrest⟩
  | byKind =>
    simp only [accept, hparse]
    exact hrule (by simp [Entry.isCustom, hparse])
  | synonym target =>
    simp only [accept, hparse]
    exact hrule (by simp [Entry.isCustom, hparse])

theorem firstAccepted_settles (s : Setting engine host Good)
    (hinner : Nested Good bound innerM inner) {lhs : Option Expr}
    (hlhs : ∀ e, lhs = some e → Good e) (stop : Terminator) {start : List Token}
    (hbound : start.length ≤ bound) {matches' : List (TriggerMatch Unit)}
    (hmatches : ∀ found ∈ matches',
      found.entry ∈ engine.dictionary.entries ∧ Past start found.after) :
    Settles (firstAccepted engine host innerM lhs stop start matches')
      (firstAccepted engine engine.host inner lhs stop start matches')
      (Advanced Good start) := by
  induction matches' with
  | nil => exact .pure advanced_none
  | cons found others ih =>
    obtain ⟨hentry, hafter⟩ := hmatches found (by simp)
    -- a match ends behind its start, so it has tokens to be logged
    have horder : ¬ start.length < found.after.length := Nat.not_lt_of_gt hafter.2
    rw [firstAccepted, firstAccepted]
    simp only [if_neg horder]
    refine (accept_settles s hinner hlhs stop hentry hafter
      (Nat.lt_of_lt_of_le hafter.2 hbound)).bind ?_
    rintro (result | result) hresult
    · exact ih fun found hfound => hmatches found (List.mem_cons_of_mem _ hfound)
    · exact .pure hresult

/-! ### Operators -/

theorem juxtaposed_settles (s : Setting engine host Good)
    (hinner : Nested Good bound innerM inner) {lhs : Expr} (hlhs : Good lhs) (stop : Terminator)
    {rest : List Token} (hbound : rest.length < bound) :
    Settles (juxtaposed engine host innerM lhs stop rest)
      (juxtaposed engine engine.host inner lhs stop rest) (Advanced Good rest) := by
  cases hhead : engine.options.invisibleOperator with
  | none =>
    simp only [juxtaposed, hhead]
    exact .pure advanced_none
  | some head =>
    simp only [juxtaposed, hhead]
    split
    · exact .pure advanced_none
    · refine (hinner _ rest hbound).bind ?_
      rintro ⟨rhs | rhs, rest'⟩ hrhs
      · exact .pure advanced_none
      · refine (build_settles s (Or.inr (Or.inr (Or.inl hhead)))
          (by simpa using ⟨hlhs, hrhs.1⟩)).bind ?_
        intro e he
        exact .pure (advanced_some he hrhs.2)

/-- The operators after an expression end behind it or at its end. -/
theorem operators_settles (s : Setting engine host Good)
    (hinner : Nested Good bound innerM inner) (stop : Terminator) {fuel fuel' : Nat} {lhs : Expr}
    {rest : List Token} (hlhs : Good lhs) (hbound : rest.length < bound)
    (hfuel : rest.length < fuel) (hfuel' : rest.length < fuel') :
    Settles (operators engine host innerM stop fuel lhs rest)
      (operators engine engine.host inner stop fuel' lhs rest)
      (fun result => Good result.1 ∧ result.2 <:+ rest) := by
  induction fuel generalizing fuel' lhs rest with
  | zero => omega
  | succ fuel ih =>
    cases fuel' with
    | zero => omega
    | succ fuel' =>
      have hskip := skipSpace_suffix rest
      have hle := hskip.length_le
      -- an operator was read: the loop goes on behind it
      have hloop : ∀ e after, Good e → Past (skipSpace rest) after →
          Settles (operators engine host innerM stop fuel e after)
            (operators engine engine.host inner stop fuel' e after)
            (fun result => Good result.1 ∧ result.2 <:+ rest) := by
        intro e after he hafter
        have hlt := hafter.2
        refine (ih he (by omega) (by omega) (by omega)).mono ?_
        intro result hresult
        exact ⟨hresult.1, hresult.2.trans (hafter.1.trans hskip)⟩
      rw [operators, operators]
      dsimp only
      split
      · exact .pure ⟨hlhs, hskip⟩
      · split
        · refine (juxtaposed_settles s hinner hlhs stop (by omega)).bind ?_
          rintro (_ | ⟨e, after⟩) hresult
          · exact .pure ⟨hlhs, hskip⟩
          · obtain ⟨he, hafter⟩ := hresult _ rfl
            exact hloop e after he hafter
        · refine (firstAccepted_settles s hinner (by simpa using hlhs) stop (by omega) ?_).bind ?_
          · intro found hfound
            have hfound := s.indexed.candidate (List.mem_filter.mp hfound).1
            exact ⟨hfound.1, hfound.2.2⟩
          · rintro (_ | ⟨e, after⟩) hresult
            · exact .pure ⟨hlhs, hskip⟩
            · obtain ⟨he, hafter⟩ := hresult _ rfl
              exact hloop e after he hafter

/-! ### What no entry claims -/

theorem group_settles (s : Setting engine host Good) (hinner : Nested Good bound innerM inner)
    {start : List Token} (hstart : start ≠ []) (hbound : start.length ≤ bound) :
    Settles (group engine host innerM start) (group engine engine.host inner start)
      (fun result => Good result.1 ∧ Past start result.2) := by
  have hinside := Past.drop_one hstart
  rw [group, group]
  refine (hinner _ (start.drop 1) (Nat.lt_of_lt_of_le hinside.2 hbound)).bind ?_
  rintro ⟨body, rest⟩ hbody
  have hrest : Past start (skipSpace rest) :=
    hinside.of_suffix ((skipSpace_suffix rest).trans hbody.suffix)
  have hclosed : Past start ((skipSpace rest).drop 1) := hrest.of_suffix (List.drop_suffix 1 _)
  dsimp only
  split
  · cases body with
    | none =>
      refine (build_settles s (Or.inr (Or.inl rfl)) (by simp)).bind ?_
      intro e he
      exact .pure ⟨he, hclosed⟩
    | some body => exact .pure ⟨hbody.good body rfl, hclosed⟩
  · refine (errorAt_settles s _ none hrest).bind ?_
    intro e he
    exact .pure ⟨he, hrest⟩

theorem letter_settles (s : Setting engine host Good) (c : Char) {start : List Token}
    (hstart : start ≠ []) :
    Settles (letter engine host c start) (letter engine engine.host c start)
      (fun result => Good result.1 ∧ Past start result.2) := by
  have hrest := Past.drop_one hstart
  unfold letter
  dsimp only
  split
  · refine (errorAt_settles s _ _ hrest).bind ?_
    intro e he
    exact .pure ⟨he, hrest⟩
  · exact .pure ⟨s.keeps.symbol _, hrest⟩

theorem unknownCommand_settles (s : Setting engine host Good) (name : String)
    {start : List Token} (hstart : start ≠ []) :
    Settles (unknownCommand engine host name start) (unknownCommand engine engine.host name start)
      (fun result => Good result.1 ∧ Past start result.2) := by
  have hrest := Past.drop_one hstart
  unfold unknownCommand
  dsimp only
  split
  · exact .pure ⟨s.keeps.symbol _, hrest⟩
  · have hplace := hrest.of_suffix (skipGroups_suffix (start.drop 1))
    refine (errorAt_settles s _ _ hplace).bind ?_
    intro e he
    exact .pure ⟨he, hplace⟩

theorem unknownLeft_settles (s : Setting engine host Good) {start : List Token}
    (hstart : start ≠ []) :
    Settles (unknownLeft host start) (unknownLeft engine.host start)
      (fun result => Good result.1 ∧ Past start result.2) := by
  have hinside := (Past.drop_one hstart).of_suffix (skipDelimiter_suffix (start.drop 1))
  rw [unknownLeft, unknownLeft]
  refine (errorAt_settles s _ _ hinside).bind ?_
  intro e he
  exact .pure ⟨he, hinside.of_suffix (skipLeft_suffix 1 _)⟩

theorem blockBody_settles (s : Setting engine host Good) (hinner : Nested Good bound innerM inner)
    {entry : Entry Unit} (hentry : entry ∈ engine.dictionary.entries) {rest : List Token}
    (hbound : rest.length < bound) :
    Settles (blockBody engine host innerM entry rest)
      (blockBody engine engine.host inner entry rest)
      (fun result => (∀ e, result.1 = some e → Good e) ∧ result.2 <:+ rest) := by
  have hrule : entry.isCustom = false → ∀ head, entry.head? = some head →
      Settles
        (do
          let (table, rest) ← tabular engine host innerM rest
          let e ← build engine host head [table]
          pure (some e, rest))
        (do
          let (table, rest) ← tabular engine engine.host inner rest
          let e ← build engine engine.host head [table]
          pure (some e, rest))
        (fun result => (∀ e, result.1 = some e → Good e) ∧ result.2 <:+ rest) := by
    intro hcustom head hhead
    refine (tabular_settles s hinner hbound).bind ?_
    rintro ⟨table, after⟩ ⟨htable, hafter⟩
    have hbuilds : Builds engine head := Or.inr (Or.inr (Or.inr ⟨entry, hentry, hcustom, hhead⟩))
    refine (build_settles s hbuilds (by simpa using htable)).bind ?_
    intro e he
    exact .pure ⟨by simpa using he, hafter⟩
  cases hparse : entry.parse with
  | custom handler =>
    simp only [blockBody, hparse]
    exact runScript_settles s hinner (s.keeps.script entry hentry handler hparse none {} (by simp))
      hbound List.suffix_rfl (by simp)
  | byKind =>
    cases hhead : entry.head? with
    | none =>
      simp only [blockBody, hparse, hhead]
      exact .pure ⟨by simp, List.suffix_rfl⟩
    | some head =>
      simp only [blockBody, hparse, hhead]
      exact hrule (by simp [Entry.isCustom, hparse]) head hhead
  | synonym target =>
    cases hhead : entry.head? with
    | none =>
      simp only [blockBody, hparse, hhead]
      exact .pure ⟨by simp, List.suffix_rfl⟩
    | some head =>
      simp only [blockBody, hparse, hhead]
      exact hrule (by simp [Entry.isCustom, hparse]) head hhead

theorem blockEnd_settles (s : Setting engine host Good) (name : String) {body : Option Expr}
    (hbody : ∀ e, body = some e → Good e) {start rest : List Token} (hrest : Past start rest) :
    Settles (blockEnd host name start body rest) (blockEnd engine.host name start body rest)
      (fun result => Good result.1 ∧ Past start result.2) := by
  have hskip : Past start (skipSpace rest) := hrest.of_suffix (skipSpace_suffix rest)
  unfold blockEnd
  cases hend : environmentEnd? name (skipSpace rest) with
  | none =>
    have hplace := hskip.of_suffix (skipEnvironment_suffix 1 (skipSpace rest))
    refine (errorAt_settles s _ _ hplace).bind ?_
    intro e he
    exact .pure ⟨he, hplace⟩
  | some upto =>
    have hupto : Past start upto := hskip.of_suffix (environmentEnd?_suffix hend)
    cases body with
    | some body => exact .pure ⟨hbody body rfl, hupto⟩
    | none =>
      refine (errorAt_settles s _ _ hupto).bind ?_
      intro e he
      exact .pure ⟨he, hupto⟩

theorem environment_settles (s : Setting engine host Good)
    (hinner : Nested Good bound innerM inner) {start : List Token} (hstart : start ≠ [])
    (hbound : start.length ≤ bound) :
    Settles (environment engine host innerM start) (environment engine engine.host inner start)
      (fun result => Good result.1 ∧ Past start result.2) := by
  have hname := groupText_suffix (start.drop 1)
  unfold environment
  split
  · rename_i rest heq
    rw [heq] at hname
    have hplace := (Past.drop_one hstart).of_suffix hname
    refine (errorAt_settles s _ _ hplace).bind ?_
    intro e he
    exact .pure ⟨he, hplace⟩
  · rename_i name rest heq
    rw [heq] at hname
    have hrest : Past start rest := (Past.drop_one hstart).of_suffix hname
    split
    · have hplace := hrest.of_suffix (skipEnvironment_suffix 1 rest)
      refine (errorAt_settles s _ _ hplace).bind ?_
      intro e he
      exact .pure ⟨he, hplace⟩
    · rename_i entry hentry
      refine (blockBody_settles s hinner (s.indexed.environment_mem hentry)
        (Nat.lt_of_lt_of_le hrest.2 hbound)).bind ?_
      rintro ⟨body, after⟩ ⟨hgood, hafter⟩
      exact blockEnd_settles s name hgood (hrest.of_suffix hafter)

theorem unclaimed_settles (s : Setting engine host Good) (hinner : Nested Good bound innerM inner)
    (token : Token) (after : List Token) (hbound : (token :: after).length ≤ bound) :
    Settles (unclaimed engine host innerM token (token :: after))
      (unclaimed engine engine.host inner token (token :: after))
      (Advanced Good (token :: after)) := by
  have hstart : token :: after ≠ [] := List.cons_ne_nil _ _
  have hsome : ∀ {x : m (Expr × List Token)} {y : Id (Expr × List Token)},
      Settles x y (fun result => Good result.1 ∧ Past (token :: after) result.2) →
      Settles (some <$> x) (some <$> y) (Advanced Good (token :: after)) := by
    intro x y h
    exact h.map fun result hresult => advanced_some hresult.1 hresult.2
  have hstray : Settles
      (if atOperator engine.dictionary (token :: after) then pure none
      else do
        let e ← errorAt host .unexpectedToken none (token :: after) ((token :: after).drop 1)
        pure (some (e, (token :: after).drop 1)))
      (if atOperator engine.dictionary (token :: after) then pure none
      else do
        let e ← errorAt engine.host .unexpectedToken none (token :: after) ((token :: after).drop 1)
        pure (some (e, (token :: after).drop 1)))
      (Advanced Good (token :: after)) := by
    split
    · exact .pure advanced_none
    · refine (errorAt_settles s _ _ (Past.tail token after)).bind ?_
      intro e he
      exact .pure (advanced_some he (Past.tail token after))
  unfold unclaimed
  split
  · exact hsome (environment_settles s hinner hstart hbound)
  · split
    · exact hsome (unknownLeft_settles s hstart)
    · cases token with
      | groupStart => exact hsome (group_settles s hinner hstart hbound)
      | char c =>
        dsimp only
        split
        · rename_i hdigit
          exact .pure (advanced_some (s.keeps.number _) (numeral_past hdigit))
        · split
          · exact hsome (letter_settles s c hstart)
          · exact hstray
      | command name =>
        dsimp only
        split
        · exact .pure advanced_none
        · exact hsome (unknownCommand_settles s name hstart)
      | groupEnd => exact hstray
      | space => exact hstray

/-! ### Expressions -/

theorem primary_settles (s : Setting engine host Good) (hinner : Nested Good bound innerM inner)
    (stop : Terminator) {rest : List Token} (hbound : rest.length ≤ bound) :
    Settles (primary engine host innerM stop rest) (primary engine engine.host inner stop rest)
      (Outcome Good rest) := by
  have hskip := skipSpace_suffix rest
  have hle : (skipSpace rest).length ≤ bound := Nat.le_trans hskip.length_le hbound
  -- without an expression the reader stays where the blanks end
  have hnone : Settles (m := m) (pure (none, skipSpace rest)) (pure (none, skipSpace rest))
      (Outcome Good rest) := .pure (exists_spacing rest)
  rw [primary, primary]
  dsimp only
  split
  · exact hnone
  · rename_i hgoes
    refine (firstAccepted_settles s hinner (by simp) stop hle ?_).bind ?_
    · intro found hfound
      have hfound := s.indexed.candidate hfound
      exact ⟨hfound.1, hfound.2.2⟩
    · rintro (_ | ⟨e, after⟩) hresult
      · dsimp only
        split
        · -- at the end the reading has stopped before
          rename_i hend
          rw [hend] at hgoes
          exact absurd rfl hgoes
        · rename_i token more heq
          rw [heq] at hle hnone hskip ⊢
          refine (unclaimed_settles s hinner token more hle).bind ?_
          rintro (_ | ⟨e, after⟩) hresult
          · exact hnone
          · obtain ⟨he, hafter⟩ := hresult _ rfl
            exact .pure ⟨he, hafter.after_suffix hskip⟩
      · obtain ⟨he, hafter⟩ := hresult _ rfl
        exact .pure ⟨he, hafter.after_suffix hskip⟩

/-- With more fuel than tokens an expression is read without any bound being used up. -/
theorem expressionWithin_settles (s : Setting engine host Good) {fuel fuel' : Nat}
    (stop : Terminator) {rest : List Token} (hfuel : rest.length < fuel)
    (hfuel' : rest.length < fuel') :
    Settles (expressionWithin engine host fuel stop rest)
      (expressionWithin engine engine.host fuel' stop rest) (Outcome Good rest) := by
  induction fuel generalizing fuel' stop rest with
  | zero => omega
  | succ fuel ih =>
    cases fuel' with
    | zero => omega
    | succ fuel' =>
      have hinner : Nested Good (min fuel fuel') (expressionWithin engine host fuel)
          (expressionWithin engine engine.host fuel') := by
        intro stop rest hlt
        exact ih stop (by omega) (by omega)
      rw [expressionWithin, expressionWithin]
      refine (primary_settles s hinner stop (by omega)).bind ?_
      rintro ⟨_ | lhs, after⟩ hresult
      · exact .pure hresult
      · obtain ⟨hlhs, (hafter : Past rest after)⟩ := hresult
        have hlt := hafter.2
        refine (operators_settles s hinner stop hlhs (by omega) (Nat.lt_succ_self _)
          (Nat.lt_succ_self _)).bind ?_
        rintro ⟨e, rest'⟩ ⟨he, hrest'⟩
        exact .pure ⟨he, hafter.of_suffix hrest'⟩

/-! ### Whole readings -/

theorem nested_expressionWithin (s : Setting engine host Good) (fuel : Nat) :
    Nested Good fuel (expressionWithin engine host fuel)
      (expressionWithin engine engine.host fuel) := by
  intro stop rest hlt
  exact expressionWithin_settles s stop hlt hlt

theorem expression_settles (s : Setting engine host Good) (stop : Terminator)
    (rest : List Token) :
    Settles (expression engine host stop rest) (expression engine engine.host stop rest)
      (Outcome Good rest) :=
  nested_expressionWithin s (rest.length + 1) stop rest (Nat.lt_succ_self _)

theorem remainder_settles (s : Setting engine host Good) (rest : List Token) :
    Settles (remainder engine host rest) (remainder engine engine.host rest)
      (fun result => Good result.1 ∧ result.2 = []) :=
  root_settles s (nested_expressionWithin s (rest.length + 1)) (Nat.lt_succ_self _)

theorem formula_settles (s : Setting engine host Good) (tokens : List Token) :
    Settles (formula engine host tokens) (formula engine engine.host tokens) Good := by
  rw [formula, formula]
  refine (remainder_settles s tokens).bind ?_
  rintro ⟨e, rest⟩ ⟨he, -⟩
  exact .pure he

end Reader

end Formula
