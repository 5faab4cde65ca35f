import Formula.Proofs.Errors
import Formula.Proofs.Reader.Climb
import Formula.Proofs.Reader.NormalForm
import Formula.Proofs.Standard.Scripts
import Mathlib.Data.List.Perm.Basic

/-!
  **Errors account for what was passed over.**

  Most errors show the tokens that they cover.  The tokens of two errors never overlap: what is read
  between two places `Accounts` for pieces between these places that lie apart, one for each error
  that shows a source, in the order of the errors.

  What is thrown away when a closing trigger is missing had errors of its own, and so had what a
  notation read before it rejected itself; but these errors are thrown away with it, and the pieces
  of an expression on the left lie in front of all that is read after it.
-/

namespace Formula

/-! ### Errors with a source -/

namespace Tree

/-- Does the error show a source? -/
def showsSource (e : Expr) : Bool := e.ops.any (hasHead "LatexString")

/-- The errors in expressions that show a source, in order. -/
def shown (es : List Expr) : List Expr := (errorsAll es).filter showsSource

@[simp] theorem shown_append (xs ys : List Expr) : shown (xs ++ ys) = shown xs ++ shown ys := by
  rw [shown, shown, shown, errorsAll_append, List.filter_append]

theorem shown_cons (e : Expr) (es : List Expr) : shown (e :: es) = shown [e] ++ shown es :=
  shown_append [e] es

theorem shown_errorCall (code : ErrorCode) (argument : Option String) (source : String) :
    shown [errorCall code argument (some source)] = [errorCall code argument (some source)] := by
  cases argument <;> rfl

theorem shown_missing : shown [errorCall .missing none none] = [] := rfl

theorem shown_engine_call (engine : Engine Unit) {head : String} (hhead : head ≠ "Error")
    (ops : List Expr) : shown [engine.call head ops] = shown ops := by
  rw [shown, shown, errorsAll, errorsAll, List.append_nil, engine.errors_call hhead]

/-- The elements of a list have the errors of the list. -/
theorem shown_ops {e : Expr} {head : String} (hhead : head ≠ "Error")
    (h : e.hasHead head = true) : shown e.ops = shown [e] := by
  cases e with
  | call label name ops =>
    have hname : name = head := by simpa [hasHead] using h
    rw [shown, shown, errorsAll, errorsAll, List.append_nil, errors_call (hname ▸ hhead)]
    rfl
  | _ => cases h

theorem shown_perm {xs ys : List Expr} (h : xs.Perm ys) : (shown xs).Perm (shown ys) := by
  induction h with
  | nil => exact .nil
  | @cons e xs ys _ ih =>
    rw [shown_cons e xs, shown_cons e ys]
    exact ih.append_left _
  | swap a b es =>
    rw [shown_cons a (b :: es), shown_cons b (a :: es), shown_cons a es, shown_cons b es,
      ← List.append_assoc, ← List.append_assoc]
    exact List.perm_append_comm.append_right _
  | trans _ _ ihxy ihyz => exact ihxy.trans ihyz

end Tree

namespace Reader

open Formula.Tree

/-! ### Pieces -/

/-- The tokens from one place up to a later one, of which there is at least one. -/
structure Piece where
  start : List Token
  rest : List Token
  past : Past start rest

/-- The error shows the tokens of the piece. -/
def Piece.Source (e : Expr) (piece : Piece) : Prop :=
  ∃ code argument,
    e = errorCall code argument (some (Latex.ofTokens (between piece.start piece.rest)))

/-- One of the pieces ends where the other starts, or before that. -/
def Piece.Apart (p q : Piece) : Prop := q.start <:+ p.rest ∨ p.start <:+ q.rest

theorem Piece.Apart.symm {p q : Piece} (h : p.Apart q) : q.Apart p := Or.symm h

/-- The errors in the expressions that show a source show pieces between the two places, and the
    pieces lie apart. -/
def Accounts (start rest : List Token) (es : List Expr) : Prop :=
  ∃ pieces : List Piece, List.Forall₂ Piece.Source (shown es) pieces ∧
    (∀ piece ∈ pieces, piece.start <:+ start ∧ rest <:+ piece.rest) ∧ pieces.Pairwise Piece.Apart

namespace Accounts

variable {start middle rest : List Token} {xs ys es : List Expr} {e : Expr}

theorem of_shown_eq (h : Accounts start rest xs) (heq : shown xs = shown ys) :
    Accounts start rest ys := by
  unfold Accounts at h ⊢
  rwa [← heq]

theorem silent (h : shown es = []) : Accounts start rest es :=
  ⟨[], h ▸ .nil, by simp, .nil⟩

theorem nil : Accounts start rest [] := silent rfl

theorem symbol (name : String) : Accounts start rest [.symbol name] := silent rfl

theorem number (value : Number) : Accounts start rest [.number value] := silent rfl

/-- An error that shows what was passed. -/
theorem error (code : ErrorCode) (argument : Option String) (h : Past start rest) :
    Accounts start rest
      [errorCall code argument (some (Latex.ofTokens (between start rest)))] := by
  refine ⟨[⟨start, rest, h⟩], ?_, ?_, List.pairwise_singleton _ _⟩
  · rw [shown_errorCall]
    exact .cons ⟨code, argument, rfl⟩ .nil
  · intro piece hpiece
    rw [List.mem_singleton.mp hpiece]
    exact ⟨List.suffix_rfl, List.suffix_rfl⟩

theorem mono (h : Accounts middle rest es) {start' rest' : List Token} (hstart : middle <:+ start')
    (hrest : rest' <:+ rest) : Accounts start' rest' es := by
  obtain ⟨pieces, hsource, hwithin, hapart⟩ := h
  refine ⟨pieces, hsource, ?_, hapart⟩
  intro piece hpiece
  obtain ⟨hleft, hright⟩ := hwithin piece hpiece
  exact ⟨hleft.trans hstart, hrest.trans hright⟩

/-- What is read behind a place lies apart from what is read in front of it. -/
theorem append (hx : Accounts start middle xs) (hmiddle : middle <:+ start)
    (hy : Accounts middle rest ys) (hrest : rest <:+ middle) :
    Accounts start rest (xs ++ ys) := by
  obtain ⟨before, hbefore, hinside, hapart⟩ := hx
  obtain ⟨behind, hbehind, hinside', hapart'⟩ := hy
  refine ⟨before ++ behind, ?_, ?_, ?_⟩
  · rw [shown_append]
    exact List.rel_append hbefore hbehind
  · intro piece hpiece
    rcases List.mem_append.mp hpiece with hpiece | hpiece
    · exact ⟨(hinside piece hpiece).1, hrest.trans (hinside piece hpiece).2⟩
    · exact ⟨(hinside' piece hpiece).1.trans hmiddle, (hinside' piece hpiece).2⟩
  · rw [List.pairwise_append]
    refine ⟨hapart, hapart', ?_⟩
    intro p hp q hq
    exact Or.inl ((hinside' q hq).1.trans (hinside p hp).2)

/-- The order of operands makes no difference. -/
theorem perm (h : Accounts start rest xs) (hperm : ys.Perm xs) : Accounts start rest ys := by
  obtain ⟨pieces, hsource, hwithin, hapart⟩ := h
  obtain ⟨pieces', hsource', hperm'⟩ :=
    List.perm_comp_forall₂ (shown_perm hperm) hsource
  refine ⟨pieces', hsource', ?_, ?_⟩
  · intro piece hpiece
    exact hwithin piece (hperm'.subset hpiece)
  · exact (hperm'.pairwise_iff Piece.Apart.symm).mpr hapart

/-- A call has the errors of its operands. -/
theorem call (engine : Engine Unit) {head : String} (hhead : head ≠ "Error")
    (h : Accounts start rest es) : Accounts start rest [engine.call head es] :=
  h.of_shown_eq (shown_engine_call engine hhead es).symm

theorem elements (h : Accounts start rest [e]) {head : String} (hhead : head ≠ "Error")
    (hlist : e.hasHead head = true) : Accounts start rest e.ops :=
  h.of_shown_eq (shown_ops hhead hlist).symm

end Accounts

/-! ### Programs and their results -/

/-- The result of the program has the property. -/
abbrev Ensures {β : Type} (P : β → Prop) (x : Id β) : Prop := Settles x x P

/-- Expressions that account for pieces behind `first` were read from `start` on. -/
def Collects (first start : List Token) (result : List Expr × List Token) : Prop :=
  Accounts first result.2 result.1 ∧ result.2 <:+ start

/-- An expression that accounts for pieces behind `first` was read from `start` on. -/
def Gives (first start : List Token) (result : Expr × List Token) : Prop :=
  Accounts first result.2 [result.1] ∧ result.2 <:+ start

/-- As `Gives`, and at least one token was passed. -/
def Passes (first start : List Token) (result : Expr × List Token) : Prop :=
  Accounts first result.2 [result.1] ∧ Past start result.2

/-- What was read, if anything, passes tokens. -/
def Offers (first start : List Token) (result : Option (Expr × List Token)) : Prop :=
  ∀ found, result = some found → Passes first start found

/-- An expression that was read accounts for pieces behind its start. -/
def Answers (start : List Token) (result : Option Expr × List Token) : Prop :=
  Outcome (fun e => Accounts start result.2 [e]) start result

theorem Offers.none {first start : List Token} : Offers first start none := by
  rintro found ⟨⟩

theorem Offers.some {first start : List Token} {result : Expr × List Token}
    (h : Passes first start result) : Offers first start (some result) := by
  rintro found ⟨rfl⟩
  exact h

/-- An expression, if any was read, accounts for pieces behind `first`. -/
def Returns (first start : List Token) (result : Option Expr × List Token) : Prop :=
  Accounts first result.2 result.1.toList ∧ result.2 <:+ start

/-- What an expression that was read accounts for. -/
theorem Answers.accounts {start : List Token} {result : Option Expr × List Token}
    (h : Answers start result) : Accounts start result.2 result.1.toList := by
  obtain ⟨e, rest⟩ := result
  cases e with
  | none => exact .nil
  | some e => exact h.1

theorem Answers.suffix {start : List Token} {result : Option Expr × List Token}
    (h : Answers start result) : result.2 <:+ start := Outcome.suffix h

/-- Nested expressions account for pieces behind their start. -/
def Answering (inner : Terminator → List Token → Id (Option Expr × List Token)) : Prop :=
  ∀ stop rest, Ensures (Answers rest) (inner stop rest)

/-- The errors in what is read are made by the reader: no notation is read as a call of `Error`. -/
structure ErrorsOwned (engine : Engine Unit) : Prop where
  accepted : engine.Accepted
  scripts : ∀ entry ∈ engine.dictionary.entries, ∀ handler, entry.parse = .custom handler →
    handler ∈ Standard.scripts
  heads : ∀ head, Builds engine head → head ≠ "Error"

variable {engine : Engine Unit} {inner : Terminator → List Token → Id (Option Expr × List Token)}
  {first start rest : List Token}

theorem build_accounts {head : String} (hhead : head ≠ "Error") {ops : List Expr}
    (hops : Accounts first rest ops) :
    Ensures (fun e => Accounts first rest [e]) (build engine engine.host head ops) := by
  rw [build_eq]
  exact .pure (hops.call engine hhead)

/-- A call at the end of what is read. -/
theorem build_passes {head : String} (hhead : head ≠ "Error") {ops : List Expr}
    (hops : Accounts first rest ops) (hrest : Past start rest) :
    Ensures (Passes first start) (do
      let e ← build engine engine.host head ops
      pure (e, rest)) :=
  (build_accounts hhead hops).bind fun _ he => .pure ⟨he, hrest⟩

theorem build_offers {head : String} (hhead : head ≠ "Error") {ops : List Expr}
    (hops : Accounts first rest ops) (hrest : Past start rest) :
    Ensures (Offers first start) (do
      let e ← build engine engine.host head ops
      pure (some (e, rest))) :=
  (build_accounts hhead hops).bind fun _ he => .pure (.some ⟨he, hrest⟩)

/-- An error at the end of what is skipped. -/
theorem errorAt_passes (code : ErrorCode) (argument : Option String) {shownRest : List Token}
    (hshown : Past start shownRest) (hrest : rest <:+ shownRest) :
    Ensures (Passes start start) (do
      let e ← errorAt engine.host code argument start shownRest
      pure (e, rest)) := by
  have herror := (Accounts.error code argument hshown).mono List.suffix_rfl hrest
  rw [errorAt_eq]
  exact .pure ⟨herror, hshown.of_suffix hrest⟩

theorem orMissing_accounts {operand : Option Expr} (h : Accounts first rest operand.toList) :
    Ensures (fun e => Accounts first rest [e]) (orMissing engine.host operand) := by
  rw [orMissing_eq]
  cases operand with
  | none => exact .pure (.silent shown_missing)
  | some e => exact .pure h

/-! ### Tables -/

theorem cells_accounts (hinner : Answering inner)
    {fuel : Nat} {row : List Expr} (hrow : Accounts first rest row) (hrest : rest <:+ first) :
    Ensures (Collects first rest) (cells engine.host inner fuel row rest) := by
  induction fuel generalizing row rest with
  | zero => exact .pure ⟨hrow, List.suffix_rfl⟩
  | succ fuel ih =>
    rw [cells]
    refine (hinner {} rest).bind ?_
    rintro ⟨cell, after⟩ hcell
    have hafter : skipSpace after <:+ rest := (skipSpace_suffix after).trans hcell.suffix
    have hvalue : Accounts rest (skipSpace after) [cell.getD (.symbol "Nothing")] := by
      cases cell with
      | none => exact .symbol _
      | some e => exact hcell.accounts.mono List.suffix_rfl (skipSpace_suffix after)
    have hrow' : Accounts first (skipSpace after)
        (if cell.isSome || nextIs (Token.isChar '&') (skipSpace after) || !row.isEmpty then
          row ++ [cell.getD (.symbol "Nothing")] else row) := by
      split
      · exact hrow.append hrest hvalue hafter
      · exact hrow.mono List.suffix_rfl hafter
    by_cases hnext : nextIs (Token.isChar '&') (skipSpace after) = true
    · simp only [if_pos hnext]
      have hdrop : (skipSpace after).drop 1 <:+ skipSpace after := List.drop_suffix 1 _
      refine (ih (hrow'.mono List.suffix_rfl hdrop) ((hdrop.trans hafter).trans hrest)).mono ?_
      intro result hresult
      exact ⟨hresult.1, hresult.2.trans (hdrop.trans hafter)⟩
    · simp only [if_neg hnext]
      exact .pure ⟨hrow', hafter⟩

theorem rows_accounts (hinner : Answering inner)
    {fuel : Nat} {table : List Expr} (htable : Accounts first rest table) (hrest : rest <:+ first) :
    Ensures (Collects first rest) (rows engine engine.host inner fuel table rest) := by
  induction fuel generalizing table rest with
  | zero => exact .pure ⟨htable, List.suffix_rfl⟩
  | succ fuel ih =>
    rw [rows]
    refine (cells_accounts hinner .nil List.suffix_rfl).bind ?_
    rintro ⟨row, after⟩ ⟨hrow, (hafter : after <:+ rest)⟩
    have hloop : ∀ table', Accounts first after table' →
        Ensures (Collects first rest)
          (if nextIs (Token.isCommand "\\\\") after then
            rows engine engine.host inner fuel table' (after.drop 1)
          else pure (table', after)) := by
      intro table' htable'
      have hdrop : after.drop 1 <:+ after := List.drop_suffix 1 _
      split
      · refine (ih (htable'.mono List.suffix_rfl hdrop) ((hdrop.trans hafter).trans hrest)).mono ?_
        intro result hresult
        exact ⟨hresult.1, hresult.2.trans (hdrop.trans hafter)⟩
      · exact .pure ⟨htable', hafter⟩
    by_cases hempty : row.isEmpty = true
    · simp only [if_pos hempty, pure_bind]
      exact hloop table (htable.mono List.suffix_rfl hafter)
    · simp only [if_neg hempty, build_eq, pure_bind]
      exact hloop _ (htable.append hrest (hrow.call engine (by decide)) hafter)

theorem tabular_accounts (hinner : Answering inner) :
    Ensures (Gives rest rest) (tabular engine engine.host inner rest) := by
  rw [tabular]
  refine (rows_accounts hinner .nil List.suffix_rfl).bind ?_
  rintro ⟨table, after⟩ ⟨htable, hafter⟩
  refine (build_accounts (by decide) htable).bind ?_
  intro list hlist
  exact .pure ⟨hlist, hafter⟩

/-! ### Everything up to the end -/

theorem leftover_accounts (h : ErrorsOwned engine) {t : Token} {v : List Token} :
    Ensures (Passes (t :: v) (t :: v)) (leftover engine engine.host (t :: v)) := by
  have htail : Past (t :: v) v := Past.tail t v
  rw [leftover]
  split
  rename_i code rest heq
  refine errorAt_passes code none ?_ List.suffix_rfl
  split at heq
  · cases heq
    exact htail.of_suffix (skipDelimiter_suffix v)
  · split at heq
    · cases heq
      exact htail.of_suffix (groupText_suffix v)
    · split at heq
      · cases heq
        exact htail
      · split at heq
        · rename_i found hfound
          cases heq
          exact (h.accepted.candidate (List.mem_of_head? hfound)).2.2
        · cases heq
          exact htail

theorem parts_accounts (h : ErrorsOwned engine)
    (hinner : Answering inner) {fuel : Nat}
    {found : List Expr} (hfound : Accounts first rest found) (hrest : rest <:+ first) :
    Ensures (Collects first rest) (parts engine engine.host inner fuel found rest) := by
  induction fuel generalizing found rest with
  | zero => exact .pure ⟨hfound, List.suffix_rfl⟩
  | succ fuel ih =>
    have hskip := skipSpace_suffix rest
    -- another part was read: the loop goes on behind it
    have hloop : ∀ e after, Accounts (skipSpace rest) after [e] → after <:+ skipSpace rest →
        Ensures (Collects first rest)
          (parts engine engine.host inner fuel (found ++ [e]) after) := by
      intro e after he hafter
      have hwhole : Accounts rest after [e] := he.mono hskip List.suffix_rfl
      have hpart := hafter.trans hskip
      refine (ih (hfound.append hrest hwhole hpart) (hpart.trans hrest)).mono ?_
      intro result hresult
      exact ⟨hresult.1, hresult.2.trans hpart⟩
    rw [parts]
    by_cases hempty : (skipSpace rest).isEmpty = true
    · simp only [if_pos hempty]
      exact .pure ⟨hfound.mono List.suffix_rfl hskip, hskip⟩
    · simp only [if_neg hempty]
      refine (hinner {} (skipSpace rest)).bind ?_
      rintro ⟨_ | e, after⟩ hresult
      · obtain rfl : after = skipSpace rest := Outcome.eq_of_none hresult
        obtain ⟨t, v, hstart⟩ : ∃ t v, skipSpace rest = t :: v := by
          cases hstart : skipSpace rest with
          | nil =>
            rw [hstart] at hempty
            exact absurd rfl hempty
          | cons t v => exact ⟨t, v, rfl⟩
        simp only [hstart] at hloop ⊢
        refine (leftover_accounts h).bind ?_
        rintro ⟨e, after⟩ ⟨he, hafter⟩
        exact hloop e after he hafter.1
      · exact hloop e after hresult.1 hresult.2.1

theorem root_accounts (h : ErrorsOwned engine)
    (hinner : Answering inner) :
    Ensures (Gives rest rest) (root engine engine.host inner rest) := by
  rw [root]
  refine (parts_accounts h hinner .nil List.suffix_rfl).bind ?_
  rintro ⟨found, after⟩ ⟨hfound, hafter⟩
  have hcombine : Ensures (fun e => Accounts rest after [e])
      (combine engine engine.host found) := by
    unfold combine
    split
    · exact .pure (.symbol _)
    · exact .pure hfound
    · exact build_accounts (by decide) hfound
  refine hcombine.bind ?_
  intro e he
  exact .pure ⟨he, hafter⟩

/-! ### Scripts -/

theorem finish_returns {head : String} (hhead : head ≠ "Error") {ops : List Expr}
    {saved : List (List Token)} (hops : Accounts first rest ops) (hrest : rest <:+ start) :
    Ensures (Returns first start)
      (runScript engine engine.host inner (Standard.finish head ops) saved rest) := by
  simp only [Standard.finish, runScript, build_eq, pure_bind]
  exact .pure ⟨hops.call engine hhead, hrest⟩

/-- A script that rejects its notation throws away what it read. -/
theorem rejects_returns {saved : List (List Token)} (hrest : rest <:+ start) :
    Ensures (Returns first start) (runScript engine engine.host inner (.done none) saved rest) := by
  simp only [runScript]
  exact .pure ⟨.nil, hrest⟩

/-- What stands on the left of a custom notation lies in front of what its script reads. -/
theorem script_returns (hinner : Answering inner)
    {handler : Handler Unit} (hscript : handler ∈ Standard.scripts) {lhs : Option Expr}
    {stop : Terminator}
    (hlhs : Accounts first start lhs.toList) (hstart : start <:+ first) {after : List Token}
    (hafter : after <:+ start) :
    Ensures (Returns first after)
      (runScript engine engine.host inner (handler lhs stop) [] after) := by
  have hbefore : Accounts first after lhs.toList := hlhs.mono List.suffix_rfl hafter
  have hfirst : after <:+ first := hafter.trans hstart
  simp only [Standard.scripts, List.mem_cons, List.not_mem_nil, or_false] at hscript
  cases lhs with
  | none => rcases hscript with rfl | rfl | rfl | rfl <;> exact rejects_returns List.suffix_rfl
  | some lhs =>
    rcases hscript with rfl | rfl | rfl | rfl
    · simp only [Standard.cartesianProduct, runScript, Engine.host, pure_bind]
      split
      · rw [runScript]
        refine (hinner _ after).bind ?_
        rintro ⟨rhs | rhs, rest⟩ hrhs
        · exact rejects_returns hrhs.suffix
        · simp only [runScript, pure_bind]
          split
          · exact finish_returns (by decide) (hbefore.append hfirst hrhs.accounts hrhs.suffix)
              hrhs.suffix
          · exact rejects_returns hrhs.suffix
      · exact rejects_returns List.suffix_rfl
    · simp only [Standard.condition, runScript]
      refine (hinner _ after).bind ?_
      rintro ⟨predicate | predicate, rest⟩ hpredicate
      · exact rejects_returns hpredicate.suffix
      · simp only [runScript, build_eq, pure_bind]
        exact finish_returns (by decide)
          (hbefore.append hfirst (hpredicate.accounts.call engine (by decide)) hpredicate.suffix)
          hpredicate.suffix
    · simp only [Standard.reverseElement, runScript]
      refine (hinner _ after).bind ?_
      rintro ⟨rhs | rhs, rest⟩ hrhs
      · exact rejects_returns hrhs.suffix
      · -- the element stands on the right of its set, and first in the call
        exact finish_returns (by decide)
          ((hbefore.append hfirst hrhs.accounts hrhs.suffix).perm (.swap lhs rhs []))
          hrhs.suffix
    · simp only [Standard.sequence, runScript]
      refine (hinner _ after).bind ?_
      rintro ⟨next, rest⟩ hnext
      refine finish_returns (by decide) (.append ?_ hfirst hnext.accounts hnext.suffix) hnext.suffix
      split
      · rename_i hlist
        exact hbefore.elements (by decide) hlist
      · exact hbefore

/-! ### Notations -/

theorem matchfix_accounts (hinner : Answering inner)
    {entry : Entry Unit} {head : String} (hhead : head ≠ "Error") {after : List Token}
    (hafter : Past start after) :
    Ensures (Passes start start) (matchfix engine engine.host inner entry head start after) := by
  rw [matchfix]
  refine (hinner _ after).bind ?_
  rintro ⟨body, inside⟩ hbody
  have hskip : skipSpace inside <:+ after := (skipSpace_suffix inside).trans hbody.suffix
  dsimp only
  split
  · -- what was read inside is thrown away, and the error covers all of it
    exact errorAt_passes _ none (hafter.of_suffix hskip) List.suffix_rfl
  · rename_i rest heq
    have hclosed : rest <:+ inside := (matchTokens_suffix heq).1.trans (skipSpace_suffix inside)
    refine build_passes hhead ?_ (hafter.of_suffix (hclosed.trans hbody.suffix))
    cases body with
    | none => exact .nil
    | some body =>
      have hinside : Accounts start rest [body] := hbody.accounts.mono hafter.1 hclosed
      dsimp only
      split
      · rename_i hlist
        rw [Bool.and_eq_true] at hlist
        exact hinside.elements (by decide) hlist.2
      · exact hinside

/-- The rule of a kind reads the entry, from behind its trigger. -/
theorem byKind_offers (hinner : Answering inner)
    {entry : Entry Unit} (hhead : ∀ head, entry.head? = some head → head ≠ "Error")
    {lhs : Option Expr} (hlhs : Accounts first start lhs.toList) (hstart : start <:+ first)
    (stop : Terminator) {after : List Token} (hafter : Past start after) :
    Ensures (Offers first start) (byKind engine engine.host inner entry lhs stop start after) := by
  have hbefore : Accounts first after lhs.toList := hlhs.mono List.suffix_rfl hafter.1
  have hfirst : after <:+ first := hafter.1.trans hstart
  unfold byKind
  split
  · exact .pure .none
  · rename_i head hname
    have hnot : head ≠ "Error" := hhead head hname
    split
    · exact .pure (.some ⟨.symbol head, hafter⟩)
    · refine (hinner _ after).bind ?_
      rintro ⟨operand, rest⟩ hoperand
      refine (orMissing_accounts (hoperand.accounts.mono hfirst List.suffix_rfl)).bind ?_
      intro e he
      exact build_offers hnot he (hafter.of_suffix hoperand.suffix)
    · split
      · exact .pure .none
      · refine (hinner _ after).bind ?_
        rintro ⟨rhs, rest⟩ hrhs
        refine (orMissing_accounts hrhs.accounts).bind ?_
        intro e he
        exact build_offers hnot (hbefore.append hfirst he hrhs.suffix)
          (hafter.of_suffix hrhs.suffix)
    · split
      · exact .pure .none
      · exact build_offers hnot hbefore hafter
    · refine (matchfix_accounts hinner hnot hafter).bind ?_
      rintro found ⟨hfound, hpast⟩
      exact .pure (.some ⟨hfound.mono hstart List.suffix_rfl, hpast⟩)
    · exact .pure .none

theorem accept_offers (h : ErrorsOwned engine)
    (hinner : Answering inner) {lhs : Option Expr}
    (hlhs : Accounts first start lhs.toList) (hstart : start <:+ first) (stop : Terminator)
    {found : TriggerMatch Unit} (hentry : found.entry ∈ engine.dictionary.entries)
    (hafter : Past start found.after) :
    Ensures (Offers first start) (accept engine engine.host inner lhs stop start found) := by
  by_cases hcustom : found.entry.isCustom = true
  · obtain ⟨handler, hparse⟩ : ∃ handler, found.entry.parse = .custom handler := by
      unfold Entry.isCustom at hcustom
      split at hcustom
      · exact ⟨_, by assumption⟩
      · cases hcustom
    simp only [accept, hparse]
    refine (script_returns hinner (h.scripts _ hentry handler hparse) hlhs hstart hafter.1).bind ?_
    rintro ⟨result, rest⟩ ⟨hresult, hrest⟩
    cases result with
    | none => exact .pure .none
    | some e => exact .pure (.some ⟨hresult, hafter.of_suffix hrest⟩)
  · have hrule : found.entry.isCustom = false := by simpa using hcustom
    rw [accept_eq_byKind hrule]
    refine byKind_offers hinner ?_ hlhs hstart stop hafter
    intro head hhead
    exact h.heads head (Or.inr (Or.inr (Or.inr ⟨_, hentry, hrule, hhead⟩)))

/-- What a notation read before it rejected itself is read again by the next one, from the same
    place. -/
theorem firstAccepted_offers (h : ErrorsOwned engine)
    (hinner : Answering inner) {lhs : Option Expr}
    (hlhs : Accounts first start lhs.toList) (hstart : start <:+ first) (stop : Terminator)
    {candidates : List (TriggerMatch Unit)}
    (hmem : ∀ found ∈ candidates,
      found.entry ∈ engine.dictionary.entries ∧ Past start found.after) :
    Ensures (Offers first start)
      (firstAccepted engine engine.host inner lhs stop start candidates) := by
  induction candidates with
  | nil => exact .pure .none
  | cons found others ih =>
    obtain ⟨hentry, hafter⟩ := hmem found List.mem_cons_self
    rw [firstAccepted_cons]
    refine (accept_offers h hinner hlhs hstart stop hentry hafter).bind ?_
    rintro (_ | result) hresult
    · exact ih fun found hfound => hmem found (List.mem_cons_of_mem _ hfound)
    · exact .pure hresult

theorem juxtaposed_offers (h : ErrorsOwned engine)
    (hinner : Answering inner) {lhs : Expr}
    (hlhs : Accounts first start [lhs]) (hstart : start <:+ first) (stop : Terminator) :
    Ensures (Offers first start) (juxtaposed engine engine.host inner lhs stop start) := by
  unfold juxtaposed
  split
  · exact .pure .none
  · rename_i head hhead
    split
    · exact .pure .none
    · refine (hinner _ start).bind ?_
      rintro ⟨_ | rhs, rest⟩ hrhs
      · exact .pure .none
      · exact build_offers (h.heads head (Or.inr (Or.inr (Or.inl hhead))))
          (hlhs.append hstart hrhs.accounts hrhs.suffix) hrhs.2

theorem operators_gives (h : ErrorsOwned engine)
    (hinner : Answering inner) (stop : Terminator)
    {fuel : Nat} {lhs : Expr} (hlhs : Accounts first rest [lhs]) (hrest : rest <:+ first) :
    Ensures (Gives first rest) (operators engine engine.host inner stop fuel lhs rest) := by
  induction fuel generalizing lhs rest with
  | zero => exact .pure ⟨hlhs, List.suffix_rfl⟩
  | succ fuel ih =>
    have hskip := skipSpace_suffix rest
    have hfirst : skipSpace rest <:+ first := hskip.trans hrest
    have hbefore : Accounts first (skipSpace rest) [lhs] := hlhs.mono List.suffix_rfl hskip
    -- an operator was read: the loop goes on behind it
    have hloop : ∀ e after, Passes first (skipSpace rest) (e, after) →
        Ensures (Gives first rest) (operators engine engine.host inner stop fuel e after) := by
      rintro e after ⟨he, hafter⟩
      refine (ih he (hafter.1.trans hfirst)).mono ?_
      intro result hresult
      exact ⟨hresult.1, hresult.2.trans (hafter.1.trans hskip)⟩
    rw [operators]
    dsimp only
    split
    · exact .pure ⟨hbefore, hskip⟩
    · split
      · refine (juxtaposed_offers h hinner hbefore hfirst stop).bind ?_
        rintro (_ | ⟨e, after⟩) hfound
        · exact .pure ⟨hbefore, hskip⟩
        · exact hloop e after (hfound _ rfl)
      · refine (firstAccepted_offers h hinner hbefore hfirst stop ?_).bind ?_
        · intro found hfound
          have hfound := h.accepted.candidate (List.mem_filter.mp hfound).1
          exact ⟨hfound.1, hfound.2.2⟩
        · rintro (_ | ⟨e, after⟩) hfound
          · exact .pure ⟨hbefore, hskip⟩
          · exact hloop e after (hfound _ rfl)

/-! ### What no entry claims -/

theorem group_passes (hinner : Answering inner)
    (hstart : start ≠ []) :
    Ensures (Passes start start) (group engine engine.host inner start) := by
  have hinside := Past.drop_one hstart
  rw [group]
  refine (hinner _ (start.drop 1)).bind ?_
  rintro ⟨body, rest⟩ hbody
  have hskip : skipSpace rest <:+ start.drop 1 := (skipSpace_suffix rest).trans hbody.suffix
  have hdrop : (skipSpace rest).drop 1 <:+ rest :=
    (List.drop_suffix 1 _).trans (skipSpace_suffix rest)
  have hclosed : Past start ((skipSpace rest).drop 1) :=
    hinside.of_suffix (hdrop.trans hbody.suffix)
  dsimp only
  split
  · cases body with
    | none => exact build_passes (by decide) .nil hclosed
    | some body => exact .pure ⟨hbody.accounts.mono hinside.1 hdrop, hclosed⟩
  · exact errorAt_passes _ none (hinside.of_suffix hskip) List.suffix_rfl

theorem letter_passes (c : Char) (hstart : start ≠ []) :
    Ensures (Passes start start) (letter engine engine.host c start) := by
  have hrest := Past.drop_one hstart
  unfold letter
  dsimp only
  split
  · exact errorAt_passes _ _ hrest List.suffix_rfl
  · exact .pure ⟨.symbol _, hrest⟩

theorem unknownCommand_passes (name : String) (hstart : start ≠ []) :
    Ensures (Passes start start) (unknownCommand engine engine.host name start) := by
  have hrest := Past.drop_one hstart
  unfold unknownCommand
  dsimp only
  split
  · exact .pure ⟨.symbol _, hrest⟩
  · exact errorAt_passes _ _ (hrest.of_suffix (skipGroups_suffix _)) List.suffix_rfl

theorem unknownLeft_passes (hstart : start ≠ []) :
    Ensures (Passes start start) (unknownLeft engine.host start) := by
  have hinside := (Past.drop_one hstart).of_suffix (skipDelimiter_suffix (start.drop 1))
  rw [unknownLeft]
  exact errorAt_passes _ none hinside (skipLeft_suffix 1 _)

theorem blockBody_returns (h : ErrorsOwned engine)
    (hinner : Answering inner) {entry : Entry Unit}
    (hentry : entry ∈ engine.dictionary.entries) :
    Ensures (Returns rest rest) (blockBody engine engine.host inner entry rest) := by
  unfold blockBody
  split
  · rename_i handler hparse
    exact script_returns hinner (h.scripts entry hentry handler hparse) .nil List.suffix_rfl
      List.suffix_rfl
  · rename_i hrule
    have hcustom : entry.isCustom = false := by
      unfold Entry.isCustom
      split
      · exact absurd (by assumption) (hrule _)
      · rfl
    split
    · exact .pure ⟨.nil, List.suffix_rfl⟩
    · rename_i head hhead
      have hnot := h.heads head (Or.inr (Or.inr (Or.inr ⟨entry, hentry, hcustom, hhead⟩)))
      refine (tabular_accounts hinner).bind ?_
      rintro ⟨table, after⟩ ⟨htable, hafter⟩
      refine (build_accounts hnot htable).bind ?_
      intro e he
      exact .pure ⟨he, hafter⟩

theorem blockEnd_passes (name : String) {body : Option Expr}
    (hbody : Accounts start rest body.toList) (hrest : Past start rest) :
    Ensures (Passes start start) (blockEnd engine.host name start body rest) := by
  have hskip : Past start (skipSpace rest) := hrest.of_suffix (skipSpace_suffix rest)
  unfold blockEnd
  split
  · exact errorAt_passes _ _ (hskip.of_suffix (skipEnvironment_suffix 1 _)) List.suffix_rfl
  · rename_i upto hend
    have hupto : upto <:+ skipSpace rest := environmentEnd?_suffix hend
    cases body with
    | some body =>
      exact .pure ⟨hbody.mono List.suffix_rfl (hupto.trans (skipSpace_suffix rest)),
        hskip.of_suffix hupto⟩
    | none => exact errorAt_passes _ _ (hskip.of_suffix hupto) List.suffix_rfl

theorem environment_passes (h : ErrorsOwned engine)
    (hinner : Answering inner) (hstart : start ≠ []) :
    Ensures (Passes start start) (environment engine engine.host inner start) := by
  have hname := groupText_suffix (start.drop 1)
  unfold environment
  split
  · rename_i rest heq
    rw [heq] at hname
    exact errorAt_passes _ _ ((Past.drop_one hstart).of_suffix hname) List.suffix_rfl
  · rename_i name rest heq
    rw [heq] at hname
    have hrest : Past start rest := (Past.drop_one hstart).of_suffix hname
    split
    · exact errorAt_passes _ _ (hrest.of_suffix (skipEnvironment_suffix 1 rest)) List.suffix_rfl
    · rename_i entry hentry
      refine (blockBody_returns h hinner (h.accepted.environment_mem hentry)).bind ?_
      rintro ⟨body, after⟩ ⟨hbody, hafter⟩
      exact blockEnd_passes name (hbody.mono hrest.1 List.suffix_rfl) (hrest.of_suffix hafter)

theorem unclaimed_offers (h : ErrorsOwned engine)
    (hinner : Answering inner) (t : Token)
    (v : List Token) :
    Ensures (Offers (t :: v) (t :: v)) (unclaimed engine engine.host inner t (t :: v)) := by
  have hstart : t :: v ≠ [] := List.cons_ne_nil _ _
  have hsome : ∀ {x : Id (Expr × List Token)}, Ensures (Passes (t :: v) (t :: v)) x →
      Ensures (Offers (t :: v) (t :: v)) (some <$> x) :=
    fun hx => hx.map fun _ hresult => .some hresult
  have hstray : Ensures (Offers (t :: v) (t :: v))
      (if atOperator engine.dictionary (t :: v) then pure none
      else do
        let e ← errorAt engine.host .unexpectedToken none (t :: v) ((t :: v).drop 1)
        pure (some (e, (t :: v).drop 1))) := by
    split
    · exact .pure .none
    · have herror : Ensures (Passes (t :: v) (t :: v)) (do
          let e ← errorAt engine.host .unexpectedToken none (t :: v) v
          pure (e, v)) :=
        errorAt_passes .unexpectedToken none (Past.tail t v) List.suffix_rfl
      exact ⟨rfl, .some herror.2⟩
  unfold unclaimed
  split
  · exact hsome (environment_passes h hinner hstart)
  · split
    · exact hsome (unknownLeft_passes hstart)
    · cases t with
      | groupStart => exact hsome (group_passes hinner hstart)
      | char c =>
        dsimp only
        split
        · rename_i hdigit
          exact .pure (.some ⟨.number _, numeral_past hdigit⟩)
        · split
          · exact hsome (letter_passes c hstart)
          · exact hstray
      | command name =>
        dsimp only
        split
        · exact .pure .none
        · exact hsome (unknownCommand_passes name hstart)
      | groupEnd => exact hstray
      | space => exact hstray

/-! ### Expressions -/

theorem primary_answers (h : ErrorsOwned engine)
    (hinner : Answering inner) (stop : Terminator) :
    Ensures (Answers rest) (primary engine engine.host inner stop rest) := by
  have hskip := skipSpace_suffix rest
  have hnone : Answers rest (none, skipSpace rest) := exists_spacing rest
  have hsome : ∀ e after, Passes (skipSpace rest) (skipSpace rest) (e, after) →
      Answers rest (some e, after) := by
    rintro e after ⟨he, hafter⟩
    exact ⟨he.mono hskip List.suffix_rfl, hafter.after_suffix hskip⟩
  rw [primary]
  dsimp only
  split
  · exact .pure hnone
  · have hnothing : Accounts (skipSpace rest) (skipSpace rest) (none : Option Expr).toList := .nil
    refine (firstAccepted_offers h hinner hnothing List.suffix_rfl stop ?_).bind ?_
    · intro found hfound
      have hfound := h.accepted.candidate hfound
      exact ⟨hfound.1, hfound.2.2⟩
    · rintro (_ | ⟨e, after⟩) hfound
      · dsimp only
        split
        · exact .pure hnone
        · rename_i t v heq
          rw [heq] at hnone hsome ⊢
          refine (unclaimed_offers h hinner t v).bind ?_
          rintro (_ | ⟨e, after⟩) hfound
          · exact .pure hnone
          · exact .pure (hsome e after (hfound _ rfl))
      · exact .pure (hsome e after (hfound _ rfl))

theorem expressionWithin_answers (h : ErrorsOwned engine) (fuel : Nat) (stop : Terminator)
    (rest : List Token) :
    Ensures (Answers rest) (expressionWithin engine engine.host fuel stop rest) := by
  induction fuel generalizing stop rest with
  | zero => exact .pure ⟨[], rfl, by simp⟩
  | succ fuel ih =>
    rw [expressionWithin]
    refine (primary_answers h ih stop).bind ?_
    rintro ⟨_ | lhs, after⟩ hresult
    · exact .pure hresult
    · obtain ⟨hlhs, (hafter : Past rest after)⟩ := hresult
      refine (operators_gives h ih stop hlhs hafter.1).bind ?_
      rintro ⟨e, rest'⟩ ⟨he, hrest'⟩
      exact .pure ⟨he, hafter.of_suffix hrest'⟩

/-! ### Whole formulas -/

theorem parseTokens_accounts (h : ErrorsOwned engine) (tokens : List Token) :
    Accounts tokens [] [engine.parseTokens tokens] := by
  have hroot : Ensures (Gives tokens tokens) (root engine engine.host
      (expressionWithin engine engine.host (tokens.length + 1)) tokens) :=
    root_accounts h (expressionWithin_answers h (tokens.length + 1))
  exact hroot.2.1.mono List.suffix_rfl List.nil_suffix

/-- Where the piece starts and ends among all tokens. -/
def Piece.span (tokens : List Token) (piece : Piece) : Nat × Nat :=
  (tokens.length - piece.start.length, tokens.length - piece.rest.length)

theorem Piece.between_eq {tokens : List Token} {piece : Piece} (h : piece.start <:+ tokens) :
    between piece.start piece.rest =
      (tokens.drop (piece.span tokens).1).take
        ((piece.span tokens).2 - (piece.span tokens).1) := by
  have hlength := h.length_le
  have hshort := piece.past.2
  have hsize : (piece.span tokens).2 - (piece.span tokens).1 =
      piece.start.length - piece.rest.length := by
    simp only [span]
    omega
  rw [between, hsize]
  congr 1
  exact List.suffix_iff_eq_drop.mp h

/-- **No token is reported by two errors.**  For every accepted dictionary whose scripts are the
    standard ones and with whose notations nothing is read as a call of `Error`, whatever the other
    options and the known symbols and functions, and for all tokens: to the errors that show a
    source belong pieces of the tokens, not empty and not overlapping, of which they are the
    sources. -/
theorem exists_pieces_of_errors {entries : List (Entry Unit)}
    (hentries : Dictionary.ofEntries entries = .ok engine.dictionary)
    (hscripts : ∀ entry ∈ entries, ∀ handler, entry.parse = .custom handler →
      handler ∈ Standard.scripts)
    (hheads : ∀ entry ∈ entries, entry.isCustom = false → entry.head? ≠ some "Error")
    (hinvisible : engine.options.invisibleOperator ≠ some "Error") (tokens : List Token) :
    ∃ pieces : List (Nat × Nat),
      List.Forall₂
        (fun e piece => ∃ code argument, e = errorCall code argument
          (some (Latex.ofTokens ((tokens.drop piece.1).take (piece.2 - piece.1)))))
        ((engine.parseTokens tokens).errors.filter showsSource) pieces ∧
      (∀ piece ∈ pieces, piece.1 < piece.2 ∧ piece.2 ≤ tokens.length) ∧
      pieces.Pairwise fun p q => p.2 ≤ q.1 ∨ q.2 ≤ p.1 := by
  have hentries_eq := (Dictionary.indexed_of_ofEntries hentries).entries_eq
  have howned : ErrorsOwned engine := {
    accepted := Engine.accepted_of_ofEntries hentries
    scripts := hentries_eq ▸ hscripts
    heads := by
      rintro head (rfl | rfl | hhead | ⟨entry, hentry, hrule, hhead⟩) herror
      · exact absurd herror (by decide)
      · exact absurd herror (by decide)
      · exact hinvisible (herror ▸ hhead)
      · exact hheads entry (hentries_eq ▸ hentry) hrule (herror ▸ hhead) }
  obtain ⟨pieces, hsource, hwithin, hapart⟩ := parseTokens_accounts howned tokens
  have hshown : shown [engine.parseTokens tokens] =
      (engine.parseTokens tokens).errors.filter showsSource := by
    rw [shown, errorsAll, errorsAll, List.append_nil]
  rw [hshown] at hsource
  refine ⟨pieces.map (Piece.span tokens), ?_, ?_, ?_⟩
  · rw [List.forall₂_map_right_iff]
    have hboth := ((List.forall₂_and_left _ _).mpr ⟨hwithin, hsource.flip⟩).flip
    refine hboth.imp ?_
    rintro e piece ⟨⟨hstart, -⟩, code, argument, rfl⟩
    exact ⟨code, argument, by rw [Piece.between_eq hstart]⟩
  · intro span hspan
    obtain ⟨piece, hpiece, rfl⟩ := List.mem_map.mp hspan
    have hlength := (hwithin piece hpiece).1.length_le
    have hshort := piece.past.2
    simp only [Piece.span]
    omega
  · rw [List.pairwise_map]
    refine hapart.imp ?_
    rintro p q (h | h)
    · have hlength := h.length_le
      simp only [Piece.span]
      omega
    · have hlength := h.length_le
      simp only [Piece.span]
      omega

/-- In `\foo\ni\bar)` the second command is the first operand of the membership, and each of the
    three errors has its own piece. -/
theorem exists_pieces_of_errors_membership :
    Dictionary.ofEntries standardEntries = .ok (Engine.standard : Engine Unit).dictionary ∧
    (∀ entry ∈ (standardEntries : List (Entry Unit)), ∀ handler,
      entry.parse = .custom handler → handler ∈ Standard.scripts) ∧
    (∀ entry ∈ (standardEntries : List (Entry Unit)), entry.isCustom = false →
      entry.head? ≠ some "Error") ∧
    (Engine.standard : Engine Unit).options.invisibleOperator ≠ some "Error" ∧
    ∃ pieces : List (Nat × Nat),
      List.Forall₂
        (fun e piece => ∃ code argument, e = errorCall code argument
          (some (Latex.ofTokens (([Token.command "\\foo", .command "\\ni", .command "\\bar",
            .char ')'].drop piece.1).take (piece.2 - piece.1)))))
        ((Engine.standard.parseTokens [Token.command "\\foo", .command "\\ni",
          .command "\\bar", .char ')']).errors.filter showsSource) pieces ∧
      (∀ piece ∈ pieces, piece.1 < piece.2 ∧ piece.2 ≤ 4) ∧
      pieces.Pairwise fun p q => p.2 ≤ q.1 ∨ q.2 ≤ p.1 := by
  have hheads : ∀ entry ∈ (standardEntries : List (Entry Unit)), entry.isCustom = false →
      entry.head? ≠ some "Error" := by
    decide +kernel
  have hinvisible : (Engine.standard : Engine Unit).options.invisibleOperator ≠ some "Error" := by
    decide
  exact ⟨Engine.standard_accepted, scripts_standardEntries, hheads, hinvisible,
    exists_pieces_of_errors Engine.standard_accepted scripts_standardEntries hheads hinvisible _⟩

end Reader

end Formula
