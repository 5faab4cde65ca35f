import Formula.Proofs.Domain.Expression
import Formula.Proofs.Reader.NormalForm
import Formula.Proofs.Session.Reading

/-!
  **No answer is stale.**

  A session with one engine begins with nothing kept and nothing remembered.  As long as nothing
  new is said about functions, each of its steps leaves a memory that is recorded in a ledger and
  keeps only expressions that are faithful to it, whatever symbols were declared on the way.  So
  what the session answers about the domain of an expression is what the engine computes at that
  moment.
-/

namespace Formula

/-! ### Honest notations -/

namespace Standard

variable {α : Type}

theorem honest_finish {head : String} {ops given : List (Tree α)}
    (hops : ∀ op ∈ ops, Script.Available given op) : (finish head ops).Honest given := by
  refine ⟨hops, ?_⟩
  intro answer e he
  cases he
  exact Script.available_of_mem (by simp)

theorem honest_rejection (given : List (Tree α)) : (Script.done none).Honest given := by
  intro e he
  cases he

theorem honest_sequence (lhs : Tree α) (stop : Terminator) :
    (sequence (some lhs) stop).Honest [lhs] := by
  intro next
  apply honest_finish
  intro op hop
  rcases List.mem_append.mp hop with hop | hop
  · split at hop
    · exact Script.available_ops (by simp) hop
    · exact Script.available_of_mem (by simpa using Or.inr hop)
  · exact Script.available_of_mem (by simpa using Or.inl hop)

theorem available_pair {given : List (Tree α)} {a b : Tree α} (ha : a ∈ given) (hb : b ∈ given) :
    ∀ op ∈ [a, b], Script.Available given op := by
  intro op hop
  rcases List.mem_cons.mp hop with rfl | hop
  · exact Script.available_of_mem ha
  · rw [List.mem_singleton.mp hop]
    exact Script.available_of_mem hb

theorem honest_condition (lhs : Tree α) (stop : Terminator) :
    (condition (some lhs) stop).Honest [lhs] := by
  rintro (_ | predicate)
  · exact honest_rejection _
  · refine ⟨?_, ?_⟩
    · intro op hop
      exact Script.available_of_mem (by simpa using Or.inl (List.mem_singleton.mp hop))
    · intro call
      exact honest_finish (available_pair (by simp) (by simp))

theorem honest_reverseElement (lhs : Tree α) (stop : Terminator) :
    (reverseElement (some lhs) stop).Honest [lhs] := by
  rintro (_ | rhs)
  · exact honest_rejection _
  · exact honest_finish (available_pair (by simp) (by simp))

theorem honest_cartesianProduct (lhs : Tree α) (stop : Terminator) :
    (cartesianProduct (some lhs) stop).Honest [lhs] := by
  refine ⟨Script.available_of_mem (by simp), ?_⟩
  rintro (_ | _)
  · exact honest_rejection _
  · rintro (_ | rhs)
    · exact honest_rejection _
    · refine ⟨Script.available_of_mem (by simp), ?_⟩
      rintro (_ | _)
      · exact honest_rejection _
      · exact honest_finish (available_pair (by simp) (by simp))

/-- The standard scripts make up nothing. -/
theorem honest_scripts {handler : Handler α} (h : handler ∈ scripts) (lhs : Option (Tree α))
    (stop : Terminator) : (handler lhs stop).Honest lhs.toList := by
  simp only [scripts, List.mem_cons, List.not_mem_nil, or_false] at h
  cases lhs with
  | none =>
    rcases h with rfl | rfl | rfl | rfl
    all_goals exact honest_rejection _
  | some lhs =>
    rcases h with rfl | rfl | rfl | rfl
    · exact honest_cartesianProduct lhs stop
    · exact honest_condition lhs stop
    · exact honest_reverseElement lhs stop
    · exact honest_sequence lhs stop

theorem honest_standardEntries : ∀ entry ∈ (standardEntries : List (Entry α)), entry.Honest := by
  intro entry hentry handler hparse
  exact honest_scripts (Reader.scripts_standardEntries entry hentry handler hparse)

end Standard

/-! ### Runs -/

namespace Session

/-- A session with one engine, in which nothing is kept and nothing is remembered. -/
def start (engine : Engine Nat) : Session := { engines := [engine] }

/-- The session after some steps. -/
def after (s : Session) (steps : List Step) : Session :=
  steps.foldl (fun s step => (s.step step).2) s

/-- Does the step say something about a function? -/
def Step.declaresFunction : Step → Bool
  | .ask _ (.declareFunction ..) => true
  | _ => false

/-- The symbol that the step declares to the first engine. -/
def Step.declaration? : Step → Option (String × Literal)
  | .ask 0 (.declareSymbol name l) => some (name, l)
  | _ => none

/-- The symbols that the steps declare to the first engine, the last one first. -/
def declared (steps : List Step) : List (String × Literal) :=
  (steps.filterMap Step.declaration?).reverse

/-- The engine after the declarations of some steps. -/
def told (engine : Engine Nat) (steps : List Step) : Engine Nat :=
  { engine with symbols := declared steps ++ engine.symbols }

/-- The session has this engine only, and the ledger records what it remembers and keeps. -/
structure Sound (engine : Engine Nat) (w : Ledger) (s : Session) : Prop where
  engines_eq : s.engines = [engine]
  records : w.Records s.memory
  kept : ∀ name e, s.slots.lookup name = some e → w.Faithful engine e

theorem sound_start (engine : Engine Nat) :
    Sound engine ⟨0, fun _ => .anything⟩ (start engine) := by
  refine ⟨rfl, Ledger.records_empty _, ?_⟩
  intro name e h
  cases h

variable {engine : Engine Nat} {w : Ledger} {s : Session}

/-- A program that keeps to the ledger leaves the session sound. -/
theorem Sound.remembering (h : Sound engine w s) {β : Type} {program : StateM Memory β}
    {result : Ledger → β → Prop} (hprogram : w.Keeps program result) :
    ∃ w', w.Extends w' ∧ Sound engine w' (s.remembering program).2 ∧
      result w' (s.remembering program).1 := by
  obtain ⟨w', hw, hrecords, hresult⟩ := hprogram s.memory h.records
  refine ⟨w', hw, ⟨h.engines_eq, hrecords, ?_⟩, hresult⟩
  intro name e hlookup
  exact (h.kept name e hlookup).mono hw

/-- What is taken from slots is faithful. -/
theorem Sound.slots (h : Sound engine w s) {names : List String} {es : List Node}
    (hes : s.slots? names = .ok es) : ∀ e ∈ es, w.Faithful engine e := by
  induction names generalizing es with
  | nil =>
    cases hes
    simp
  | cons name names ih =>
    rw [slots?, List.mapM_cons] at hes
    cases hlookup : s.slots.lookup name with
    | none =>
      rw [hlookup] at hes
      cases hes
    | some e =>
      rw [hlookup] at hes
      cases hrest : s.slots? names with
      | error missing =>
        rw [slots?] at hrest
        rw [hrest] at hes
        cases hes
      | ok rest =>
        have hall := ih hrest
        rw [slots?] at hrest
        rw [hrest] at hes
        cases hes
        exact List.forall_mem_cons.mpr ⟨h.kept name e hlookup, hall⟩

/-! ### Steps -/

section

variable {entries : List (Entry Nat)} (hindexed : Dictionary.Indexed entries engine.dictionary)
  (hhonest : ∀ entry ∈ entries, entry.Honest)

/-- A program that makes an expression, on behalf of a source. -/
theorem Sound.makes (h : Sound engine w s) {program : StateM Memory Node}
    (hprogram : w.Makes engine program) :
    ∃ w', Sound engine w' (s.remembering (some <$> program)).2 ∧
      ∀ e ∈ (s.remembering (some <$> program)).1, w'.Faithful engine e := by
  have hsome : w.Keeps (some <$> program) fun w' made => ∀ e ∈ made, w'.Faithful engine e := by
    refine hprogram.map ?_
    intro w' _ e he
    simpa using he
  obtain ⟨w', -, hsound, he⟩ := h.remembering hsome
  exact ⟨w', hsound, he⟩

include hindexed hhonest in
/-- What a source gives is faithful. -/
theorem Sound.produce (h : Sound engine w s) (index : Nat) (source : Source)
    {made : Option Node} {s' : Session}
    (hproduce : s.produce index engine source = .ok (made, s')) :
    ∃ w', Sound engine w' s' ∧ ∀ e ∈ made, w'.Faithful engine e := by
  cases source with
  | parse latex =>
    cases hproduce
    exact h.makes (Ledger.formula_makes hindexed hhonest w _)
  | build e =>
    cases hproduce
    exact h.makes (Ledger.makes_relabel e w)
  | function head args =>
    obtain ⟨ops, hops, heq⟩ := exists_of_map_ok hproduce
    cases heq
    exact h.makes (Ledger.makes_function head (h.slots hops))
  | raw head args =>
    obtain ⟨ops, hops, heq⟩ := exists_of_map_ok hproduce
    cases heq
    exact h.makes (Ledger.makes_call head (h.slots hops))
  | rawApplied head args =>
    obtain ⟨es, hes, heq⟩ := exists_of_map_ok hproduce
    have hall := h.slots hes
    cases es with
    | nil =>
      cases heq
      exact ⟨w, h, by simp⟩
    | cons head ops =>
      cases heq
      obtain ⟨hhead, hops⟩ := List.forall_mem_cons.mp hall
      exact h.makes (Ledger.makes_apply hhead hops)
  | operand slot place =>
    obtain ⟨es, hes, heq⟩ := exists_of_map_ok hproduce
    cases heq
    refine ⟨w, h, ?_⟩
    intro op hop
    obtain ⟨e, he, hplace⟩ := Option.bind_eq_some_iff.mp hop
    have hfaithful := h.slots hes e (List.mem_of_mem_head? he)
    exact hfaithful.ops op (List.mem_of_getElem? hplace)
  | flatten slot =>
    obtain ⟨es, hes, heq⟩ := exists_of_map_ok hproduce
    have hall := h.slots hes
    cases es with
    | nil =>
      cases heq
      exact ⟨w, h, by simp⟩
    | cons e rest =>
      cases heq
      exact h.makes (Ledger.makes_flattenCall (hall e (by simp)))

include hindexed hhonest in
/-- Coming by an expression and keeping it. -/
theorem Sound.make (h : Sound engine w s) (index : Nat) (source : Source) (slot : Option String) :
    ∃ w', Sound engine w' (s.step (.make index source slot)).2 := by
  unfold Session.step
  dsimp only
  split
  · exact ⟨w, h⟩
  · rename_i found hfound
    have hengine : found = engine := by
      rw [h.engines_eq, List.getElem?_singleton] at hfound
      split at hfound
      · cases hfound
        rfl
      · cases hfound
    subst hengine
    split
    · exact ⟨w, h⟩
    · rename_i hproduce
      obtain ⟨w', hsound, -⟩ := h.produce hindexed hhonest index source hproduce
      exact ⟨w', hsound⟩
    · rename_i e s' hproduce
      obtain ⟨w', hsound, he⟩ := h.produce hindexed hhonest index source hproduce
      refine ⟨w', hsound.engines_eq, hsound.records, ?_⟩
      dsimp only
      cases slot with
      | none => exact hsound.kept
      | some slot =>
        intro name found hlookup
        rw [List.lookup_cons] at hlookup
        split at hlookup
        · cases hlookup
          exact he e rfl
        · exact hsound.kept name found hlookup

/-- An answer about one expression. -/
theorem Sound.about (h : Sound engine w s) {answer : Node → Answer × Session} (slot : String)
    (hanswer : ∀ e, w.Faithful engine e → ∃ w', Sound engine w' (answer e).2) :
    ∃ w', Sound engine w' (s.about slot answer).2 := by
  unfold Session.about
  split
  · rename_i e hlookup
    exact hanswer e (h.kept slot e hlookup)
  · exact ⟨w, h⟩

theorem Sound.remembered (h : Sound engine w s) {β γ : Type} {program : StateM Memory β}
    {result : Ledger → β → Prop} (hprogram : w.Keeps program result) (f : β → γ) :
    ∃ w', Sound engine w' (s.remembering (f <$> program)).2 := by
  have hmap : w.Keeps (f <$> program) fun _ _ => True := hprogram.map fun _ _ _ _ => trivial
  obtain ⟨w', -, hsound, -⟩ := h.remembering hmap
  exact ⟨w', hsound⟩

/-- Symbols are not in the ledger. -/
theorem Sound.declareSymbol (h : Sound engine w s) (name : String) (l : Literal) :
    Sound (engine.declareSymbol name l) w (s.setEngine 0 (engine.declareSymbol name l)) := by
  refine ⟨?_, h.records, h.kept⟩
  rw [setEngine, h.engines_eq]
  rfl

theorem told_of_no_declaration {step : Step} (h : step.declaration? = none) :
    told engine [step] = engine := by
  rw [told, declared, List.filterMap_cons_none h]
  rfl

theorem told_cons (engine : Engine Nat) (step : Step) (steps : List Step) :
    told engine (step :: steps) = told (told engine [step]) steps := by
  have hdeclared : declared (step :: steps) = declared steps ++ declared [step] := by
    rw [declared, ← List.singleton_append, List.filterMap_append, List.reverse_append]
    rfl
  rw [told, hdeclared, List.append_assoc]
  rfl

/-- A question changes nothing that is kept. -/
theorem Sound.answer (h : Sound engine w s) {query : Query}
    (hquery : Step.declaresFunction (.ask 0 query) = false) :
    ∃ w', Sound (told engine [.ask 0 query]) w' (s.answer 0 engine query).2 := by
  -- answers that do not even look at the memory
  have hsame : ∀ {answer : Node → Answer} (slot : String),
      ∃ w', Sound engine w' (s.about slot fun e => (answer e, s)).2 :=
    fun slot => h.about slot fun e _ => ⟨w, h⟩
  have htwo : ∀ {answer : Node → Node → Answer} (a b : String),
      ∃ w', Sound engine w' (s.about a fun x => s.about b fun y => (answer x y, s)).2 :=
    fun a b => h.about a fun x _ => hsame b
  cases query with
  | domain slot => exact h.about slot fun e he => h.remembered (Ledger.keeps_domain he) _
  | compatible slot d =>
    exact h.about slot fun e he => h.remembered (Ledger.keeps_isCompatible 0 he d) _
  | declareSymbol name l => exact ⟨w, h.declareSymbol name l⟩
  | declareFunction name info => cases hquery
  | latex slot => exact hsame slot
  | equal a b => exact htwo a b
  | identical a b => exact htwo a b
  | valid slot => exact hsame slot
  | initialized => exact ⟨w, h⟩
  | ancestors d => exact h.remembered (Ledger.keeps_ancestors 0 d) _
  | subdomain a b => exact h.remembered (Ledger.keeps_isSubdomain 0 a b) _

theorem Sound.ask (h : Sound engine w s) (index : Nat) {query : Query}
    (hquery : Step.declaresFunction (.ask index query) = false) :
    ∃ w', Sound (told engine [.ask index query]) w' (s.step (.ask index query)).2 := by
  unfold Session.step
  dsimp only
  rw [h.engines_eq]
  cases index with
  | zero => exact h.answer hquery
  | succ index =>
    -- no such engine
    rw [told_of_no_declaration rfl]
    exact ⟨w, h⟩

include hindexed hhonest in
/-- **One step.**  The session stays sound for the engine that has heard what the step declares. -/
theorem Sound.step (h : Sound engine w s) {step : Step} (hstep : step.declaresFunction = false) :
    ∃ w', Sound (told engine [step]) w' (s.step step).2 := by
  cases step with
  | make index source slot =>
    rw [told_of_no_declaration rfl]
    exact h.make hindexed hhonest index source slot
  | ask index query => exact h.ask index hstep

include hindexed hhonest in
/-- **A whole run.** -/
theorem Sound.after (h : Sound engine w s) {steps : List Step}
    (hsteps : ∀ step ∈ steps, step.declaresFunction = false) :
    ∃ w', Sound (told engine steps) w' (s.after steps) := by
  induction steps generalizing engine w s with
  | nil => exact ⟨w, h⟩
  | cons step steps ih =>
    obtain ⟨hstep, hrest⟩ := List.forall_mem_cons.mp hsteps
    obtain ⟨w', hsound⟩ := h.step hindexed hhonest hstep
    rw [told_cons]
    exact ih hindexed hsound hrest

end

/-! ### Answers -/

/-- What a program answers about a kept expression, and the session after it. -/
theorem Sound.answer_eq (h : Sound engine w s) {slot : String} {e : Node}
    (hslot : s.slots.lookup slot = some e) {β : Type} {program : Node → StateM Memory β} {b : β}
    (hprogram : w.Keeps (program e) fun _ answer => answer = b) (f : β → Answer) :
    (s.about slot fun e => s.remembering (f <$> program e)).1 = f b := by
  have hmap : w.Keeps (f <$> program e) fun _ answer => answer = f b :=
    hprogram.map fun _ _ _ hb => congrArg f hb
  obtain ⟨w', -, -, hanswer⟩ := h.remembering hmap
  unfold Session.about
  rw [hslot]
  exact hanswer

theorem Sound.step_ask (h : Sound engine w s) (query : Query) :
    s.step (.ask 0 query) = s.answer 0 engine query := by
  unfold Session.step
  dsimp only
  rw [h.engines_eq]
  rfl

/-- **No answer is stale.**  In a session that starts with one engine, with nothing kept and nothing
    remembered, after any steps that say nothing about functions: the answers about the domain of
    an expression that is kept are those that the engine, with the symbols declared so far,
    computes without a memory.  The notations of the engine may be any whose scripts are honest. -/
theorem answers_current {entries : List (Entry Nat)}
    (hentries : Dictionary.ofEntries entries = .ok engine.dictionary)
    (hhonest : ∀ entry ∈ entries, entry.Honest) {before : List Step}
    (hbefore : ∀ step ∈ before, step.declaresFunction = false) {slot : String} {e : Node}
    (hslot : ((start engine).after before).slots.lookup slot = some e) :
    (((start engine).after before).step (.ask 0 (.domain slot))).1 =
        .literal ((told engine before).domain e) ∧
      ∀ d, (((start engine).after before).step (.ask 0 (.compatible slot d))).1 =
        .flag ((told engine before).isCompatible e d) := by
  have hindexed := Dictionary.indexed_of_ofEntries hentries
  obtain ⟨w, hsound⟩ := (sound_start engine).after hindexed hhonest hbefore
  have he := hsound.kept slot e hslot
  constructor
  · rw [hsound.step_ask]
    exact hsound.answer_eq hslot (Ledger.keeps_domain he) Answer.literal
  · intro d
    rw [hsound.step_ask]
    exact hsound.answer_eq hslot (Ledger.keeps_isCompatible 0 he d) Answer.flag

/-- A group is asked about before and after its content is declared to be a set. -/
def groupSteps : List Step :=
  [.make 0 (.build (.symbol "x")) (some "x"), .make 0 (.raw "Delimiter" ["x"]) (some "group"),
   .ask 0 (.domain "group"), .ask 0 (.declareSymbol "x" .sets)]

theorem ofEntries_standard_labelled :
    Dictionary.ofEntries standardEntries = .ok (Engine.standard : Engine Nat).dictionary := by
  have hsound : (standardEntries : List (Entry Nat)).all (fun entry => entry.defect?.isNone) =
      true := by
    decide +kernel
  obtain ⟨d, hd⟩ := Dictionary.exists_ofEntries_of_all hsound
  have hstandard : (Engine.standard : Engine Nat).dictionary = Dictionary.standard := rfl
  rw [hd, hstandard, Dictionary.standard, hd]

theorem answers_current_group :
    Dictionary.ofEntries standardEntries = .ok (Engine.standard : Engine Nat).dictionary ∧
    (∀ entry ∈ (standardEntries : List (Entry Nat)), entry.Honest) ∧
    (∀ step ∈ groupSteps, step.declaresFunction = false) ∧
    ((start Engine.standard).after groupSteps).slots.lookup "group" =
      some (.call 0 "Delimiter" [.symbol "x"]) ∧
    (((start Engine.standard).after groupSteps).step (.ask 0 (.domain "group"))).1 =
      .literal .sets := by
  have hsteps : ∀ step ∈ groupSteps, step.declaresFunction = false := by
    simp [groupSteps, Step.declaresFunction]
  have hslot : ((start Engine.standard).after groupSteps).slots.lookup "group" =
      some (.call 0 "Delimiter" [.symbol "x"]) := rfl
  refine ⟨ofEntries_standard_labelled, Standard.honest_standardEntries, hsteps, hslot, ?_⟩
  exact (answers_current ofEntries_standard_labelled Standard.honest_standardEntries hsteps hslot).1

end Session

end Formula
