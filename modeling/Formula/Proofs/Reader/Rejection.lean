import Formula.Proofs.Dictionary.Insertion
import Formula.Proofs.Domain
import Formula.Proofs.Reader.Climb
import Formula.Proofs.Standard.Scripts
import Mathlib.Data.List.Basic

/-!
  **A rejected notation leaves no trace.**

  An operator whose script always rejects it is put into the dictionary, at triggers that other
  operators have already.  Every formula is then read as before.  The functions of the reader are
  taken one by one: each gives the same with the two dictionaries, if nested expressions are read
  in the same way.  Induction on the fuel does the rest.

  A script moves the place while it runs, but it is only the result that `accept` looks at, and
  the next candidate starts from the place where the trigger stands.
-/

namespace Formula

/-- The same engine with another dictionary. -/
def Engine.withDictionary (engine : Engine Unit) (d : Dictionary Unit) : Engine Unit :=
  { engine with dictionary := d }

namespace Reader

/-- What reads the expressions that are nested in a notation. -/
abbrev Inner := Terminator → List Token → Id (Option Expr × List Token)

/-- However nested expressions are read, the script ends with a rejection. -/
def Rejects (handler : Handler Unit) : Prop :=
  ∀ (engine : Engine Unit) (inner : Inner) (lhs : Option Expr) (stop : Terminator)
    (rest : List Token),
    (Id.run (runScript engine engine.host inner (handler lhs stop) [] rest)).1 = none

end Reader

open Reader

/-- The notation is read by a script that always rejects it. -/
def Entry.Rejected (entry : Entry Unit) : Prop :=
  ∃ handler, entry.parse = .custom handler ∧ Rejects handler

namespace Reader

variable {engine : Engine Unit} {d : Dictionary Unit}

/-! ### What does not ask the dictionary -/

theorem host_withDictionary : (engine.withDictionary d).host = engine.host := by
  have hdomain : (engine.withDictionary d).domain = engine.domain :=
    funext (Engine.domain_congr rfl rfl)
  unfold Engine.host Engine.isCompatible
  rw [hdomain]

variable {host : Host Id Unit} {inner : Inner}

theorem rows_withDictionary (fuel : Nat) (found : List Expr) (rest : List Token) :
    rows (engine.withDictionary d) host inner fuel found rest =
      rows engine host inner fuel found rest := by
  induction fuel generalizing found rest with
  | zero => rfl
  | succ fuel ih =>
    simp only [rows, ih]
    rfl

theorem tabular_withDictionary (rest : List Token) :
    tabular (engine.withDictionary d) host inner rest = tabular engine host inner rest := by
  rw [tabular, rows_withDictionary]
  rfl

/-! ### What asks it -/

section

variable {new : Entry Unit} (h : Dictionary.Gains new engine.dictionary d)

include h

theorem leftover_gains (start : List Token) :
    leftover (engine.withDictionary d) host start = leftover engine host start := by
  cases start with
  | nil => rfl
  | cons t after =>
    have hcloser : (engine.withDictionary d).dictionary.isCloser t =
        engine.dictionary.isCloser t := h.isCloser_eq t
    have hlookup : ((engine.withDictionary d).dictionary.lookup? (t :: after)
        [.infixOp, .postfixOp, .prefixOp]).map TriggerMatch.after = _ :=
      h.lookup_eq (t :: after) [.infixOp, .postfixOp, .prefixOp] (by decide) (by decide)
    unfold leftover
    dsimp only
    rw [hcloser]
    cases hold : engine.dictionary.lookup? (t :: after) [.infixOp, .postfixOp, .prefixOp] with
    | none =>
      rw [hold, Option.map_none, Option.map_eq_none_iff] at hlookup
      rw [hlookup]
    | some found =>
      rw [hold, Option.map_some, Option.map_eq_some_iff] at hlookup
      obtain ⟨found', hnew, hafter⟩ := hlookup
      rw [hnew]
      dsimp only
      rw [hafter]

theorem parts_gains (fuel : Nat) (found : List Expr) (rest : List Token) :
    parts (engine.withDictionary d) host inner fuel found rest =
      parts engine host inner fuel found rest := by
  induction fuel generalizing found rest with
  | zero => rfl
  | succ fuel ih => simp only [parts, ih, leftover_gains h]

theorem root_gains (rest : List Token) :
    root (engine.withDictionary d) host inner rest = root engine host inner rest := by
  rw [root, parts_gains h]
  rfl

theorem runScript_gains (script : Script Unit) (saved : List (List Token)) (rest : List Token) :
    runScript (engine.withDictionary d) host inner script saved rest =
      runScript engine host inner script saved rest := by
  induction script generalizing saved rest with
  | done result => rfl
  | tabular next ih => simp only [runScript, tabular_withDictionary, ih]
  | root next ih => simp only [runScript, root_gains h, ih]
  | build head ops next ih =>
    simp only [runScript, ih]
    rfl
  | _ => simp only [runScript, *]

theorem accept_gains (lhs : Option Expr) (stop : Terminator) (start : List Token)
    (found : TriggerMatch Unit) :
    accept (engine.withDictionary d) host inner lhs stop start found =
      accept engine host inner lhs stop start found := by
  unfold accept
  split
  · rw [runScript_gains h]
  · rfl

theorem firstAccepted_gains (lhs : Option Expr) (stop : Terminator) (start : List Token)
    (candidates : List (TriggerMatch Unit)) :
    firstAccepted (engine.withDictionary d) host inner lhs stop start candidates =
      firstAccepted engine host inner lhs stop start candidates := by
  induction candidates with
  | nil => rfl
  | cons found others ih => simp only [firstAccepted, accept_gains h, ih]

theorem atTerminator_gains (stop : Terminator) (rest : List Token) :
    atTerminator d stop rest = atTerminator engine.dictionary stop rest := by
  cases rest with
  | nil => rfl
  | cons t rest => rw [atTerminator, atTerminator, h.isCloser_eq]

theorem isEmpty_gains (rest : List Token) :
    (d.candidates rest [.infixOp, .postfixOp]).isEmpty =
      (engine.dictionary.candidates rest [.infixOp, .postfixOp]).isEmpty := by
  have hlookup := h.lookup_eq rest [.infixOp, .postfixOp] (by decide) (by decide)
  unfold Dictionary.lookup? at hlookup
  generalize d.candidates rest [.infixOp, .postfixOp] = found' at hlookup ⊢
  generalize engine.dictionary.candidates rest [.infixOp, .postfixOp] = found at hlookup ⊢
  cases found' <;> cases found <;> first | rfl | cases hlookup

theorem atOperator_gains (rest : List Token) :
    atOperator d rest = atOperator engine.dictionary rest := by
  have hlookup := h.lookup_eq rest [.infixOp, .postfixOp] (by decide) (by decide)
  rw [atOperator, atOperator, ← Option.isSome_map, hlookup, Option.isSome_map]

theorem blockBody_gains (entry : Entry Unit) (rest : List Token) :
    blockBody (engine.withDictionary d) host inner entry rest =
      blockBody engine host inner entry rest := by
  unfold blockBody
  split
  · rw [runScript_gains h]
  · simp only [tabular_withDictionary]
    rfl

theorem environment_gains (start : List Token) :
    environment (engine.withDictionary d) host inner start =
      environment engine host inner start := by
  have henvironment : (engine.withDictionary d).dictionary.environment? =
      engine.dictionary.environment? := funext h.environment_eq
  simp only [environment, henvironment, blockBody_gains h]

theorem unclaimed_gains (t : Token) (start : List Token) :
    unclaimed (engine.withDictionary d) host inner t start =
      unclaimed engine host inner t start := by
  have hdictionary : (engine.withDictionary d).dictionary = d := rfl
  simp only [unclaimed, hdictionary, atOperator_gains h, environment_gains h]
  rfl

theorem primary_gains (stop : Terminator) (rest : List Token) :
    primary (engine.withDictionary d) host inner stop rest =
      primary engine host inner stop rest := by
  have hdictionary : (engine.withDictionary d).dictionary = d := rfl
  have hcandidates : ∀ start, d.candidates start [.symbol, .prefixOp, .matchfix] =
      engine.dictionary.candidates start [.symbol, .prefixOp, .matchfix] := by
    intro start
    exact h.candidates_eq start _ (by decide) (by decide)
  simp only [primary, hdictionary, atTerminator_gains h, hcandidates, firstAccepted_gains h,
    unclaimed_gains h]

end

/-! ### Rejected candidates -/

theorem accept_rejected {found : TriggerMatch Unit} (h : found.entry.Rejected)
    (lhs : Option Expr) (stop : Terminator) (start : List Token) :
    accept engine engine.host inner lhs stop start found = pure none := by
  obtain ⟨handler, hparse, hrejects⟩ := h
  have hnone := hrejects engine inner lhs stop found.after
  cases hrun : Id.run (runScript engine engine.host inner (handler lhs stop) [] found.after) with
  | mk result rest =>
    rw [hrun] at hnone
    cases hnone
    exact accept_of_script found hparse hrun

/-- Candidates that are always rejected can be left out. -/
theorem firstAccepted_filter {keep : Entry Unit → Bool}
    (hkeep : ∀ entry, keep entry = false → entry.Rejected) (lhs : Option Expr)
    (stop : Terminator) (start : List Token) (candidates : List (TriggerMatch Unit)) :
    firstAccepted engine engine.host inner lhs stop start
        (candidates.filter fun found => keep found.entry) =
      firstAccepted engine engine.host inner lhs stop start candidates := by
  induction candidates with
  | nil => rfl
  | cons found others ih =>
    cases hfound : keep found.entry with
    | true => rw [List.filter_cons_of_pos (by simpa using hfound), firstAccepted_cons,
        firstAccepted_cons, ih]
    | false =>
      have hrejected := hkeep found.entry hfound
      rw [List.filter_cons_of_neg (by simp [hfound]), ih, firstAccepted_cons,
        accept_rejected hrejected]
      rfl

variable {new : Entry Unit} (h : Dictionary.Gains new engine.dictionary d)
  (hrejected : new.Rejected)

include h hrejected

/-- The candidates are tried with the same success. -/
theorem firstAccepted_candidates (lhs : Option Expr) (stop : Terminator) (rest : List Token)
    (kinds : List Kind) (tight : TriggerMatch Unit → Bool) :
    firstAccepted (engine.withDictionary d) engine.host inner lhs stop rest
        ((d.candidates rest kinds).filter tight) =
      firstAccepted engine engine.host inner lhs stop rest
        ((engine.dictionary.candidates rest kinds).filter tight) := by
  classical
  -- both lists come to the same when what is always rejected is left out
  let keep : Entry Unit → Bool := fun entry => ! decide entry.Rejected
  have hkeep : ∀ entry, keep entry = false → entry.Rejected := by
    intro entry hentry
    simpa [keep] using hentry
  have hnew : keep new = false := by simp [keep, hrejected]
  rw [firstAccepted_gains h, ← firstAccepted_filter hkeep, List.filter_comm,
    h.filter_eq keep hnew, List.filter_comm, firstAccepted_filter hkeep]

theorem operators_gains (stop : Terminator) (fuel : Nat) (lhs : Expr) (rest : List Token) :
    operators (engine.withDictionary d) engine.host inner stop fuel lhs rest =
      operators engine engine.host inner stop fuel lhs rest := by
  induction fuel generalizing lhs rest with
  | zero => rfl
  | succ fuel ih =>
    have hdictionary : (engine.withDictionary d).dictionary = d := rfl
    simp only [operators, hdictionary, atTerminator_gains h, isEmpty_gains h,
      firstAccepted_candidates h hrejected, ih]
    rfl

/-- Every expression is read as before, with any fuel. -/
theorem expressionWithin_gains (fuel : Nat) :
    expressionWithin (engine.withDictionary d) engine.host fuel =
      expressionWithin engine engine.host fuel := by
  induction fuel with
  | zero => rfl
  | succ fuel ih =>
    funext stop rest
    simp only [expressionWithin, ih, primary_gains h, operators_gains h hrejected]

theorem parseTokens_gains (tokens : List Token) :
    (engine.withDictionary d).parseTokens tokens = engine.parseTokens tokens := by
  simp only [Engine.parseTokens, formula, remainder, host_withDictionary,
    expressionWithin_gains h hrejected, root_gains h]

end Reader

/-- **A rejected notation leaves no trace.**  Anywhere in the list of entries an operator may stand
    whose script always rejects it, if each of its triggers has the tokens of some other operator's
    trigger: every formula is read as without it. -/
theorem Engine.parseTokens_rejected {engine : Engine Unit} {before after : List (Entry Unit)}
    (haccepted : Dictionary.ofEntries (before ++ after) = .ok engine.dictionary)
    {new : Entry Unit} {d : Dictionary Unit}
    (hinserted : Dictionary.ofEntries (before ++ new :: after) = .ok d)
    (hdoubles : new.Doubles (before ++ after)) (hrejected : new.Rejected) (tokens : List Token) :
    (engine.withDictionary d).parseTokens tokens = engine.parseTokens tokens := by
  apply parseTokens_gains _ hrejected
  exact Dictionary.gains (Dictionary.indexed_of_ofEntries haccepted)
    (Dictionary.indexed_of_ofEntries hinserted) hdoubles

/-- A plus sign that reads what stands behind it, and then will not have it. -/
def rejectedPlus : Entry Unit :=
  .custom .infixOp "+" fun _ stop => .expression stop fun _ => .skipSpace (.done none)

/-- In front of all the standard notations it is the first to be tried, and it leaves no trace. -/
theorem Engine.parseTokens_rejectedPlus :
    ∃ d, Dictionary.ofEntries ([] ++ rejectedPlus :: standardEntries) = .ok d ∧
      rejectedPlus.Doubles ([] ++ standardEntries) ∧ rejectedPlus.Rejected ∧
      ∀ tokens, (Engine.standard.withDictionary d).parseTokens tokens =
        Engine.standard.parseTokens tokens := by
  have hdefects : (rejectedPlus :: standardEntries).all (fun entry => entry.defect?.isNone) =
      true := by
    rw [List.all_cons, all_sound_standardEntries]
    decide +kernel
  obtain ⟨d, hd⟩ := Dictionary.exists_ofEntries_of_all hdefects
  have hrejected : rejectedPlus.Rejected := ⟨_, rfl, fun _ _ _ _ _ => rfl⟩
  have hdoubles : rejectedPlus.Doubles ([] ++ standardEntries) := by
    refine ⟨Or.inl rfl, ?_⟩
    intro t ht
    rw [List.mem_singleton.mp ht]
    have hplus : (standardEntries : List (Entry Unit)).any (fun o => o.kind == .infixOp &&
        o.triggers.any (·.tokens == (Trigger.ofLatex "+").tokens)) = true := by
      decide +kernel
    obtain ⟨o, ho, hplus⟩ := List.any_eq_true.mp hplus
    rw [Bool.and_eq_true, beq_iff_eq, List.any_eq_true] at hplus
    obtain ⟨t', ht', htokens⟩ := hplus.2
    exact ⟨o, ho, Or.inl hplus.1, t', ht', by simpa using htokens⟩
  have haccepted : Dictionary.ofEntries ([] ++ standardEntries) =
      .ok (Engine.standard : Engine Unit).dictionary := Engine.standard_accepted
  have hinserted : Dictionary.ofEntries ([] ++ rejectedPlus :: standardEntries) = .ok d := hd
  exact ⟨d, hinserted, hdoubles, hrejected, fun tokens =>
    Engine.parseTokens_rejected haccepted hinserted hdoubles hrejected tokens⟩

end Formula
