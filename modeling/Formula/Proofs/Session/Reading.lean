import Formula.Proofs.Dictionary.Candidates
import Formula.Proofs.Session.Ledger
import Formula.Standard

/-!
  **Reading keeps the ledger.**

  Whatever the reader builds and asks on its way, also in a notation that it rejects later, every
  expression that comes out of a reading is faithful to the ledger.  There is one lemma for each
  function of the reader, with the expressions that are read inside as a hypothesis, and the whole
  follows by induction on the fuel.

  A script is carried out on behalf of a notation, and it is a function of the expressions that it
  is given.  An honest one works with these, with what stands in them and with what the reader
  builds for it; it cannot make up a call with a label that was never given out.
-/

namespace Formula

namespace Script

variable {α : Type}

/-- What can be had from the expressions that were given: leaves, and what stands in one of them. -/
def Available (given : List (Tree α)) (e : Tree α) : Prop :=
  e.isCall = false ∨ ∃ source ∈ given, Tree.Occurs e source

/-- A script that works only with the expressions that it was given, and with the answers to its
    requests. -/
def Honest : Script α → List (Tree α) → Prop
  | .done result, given => ∀ e ∈ result, Available given e
  | .expression _ next, given => ∀ answer, (next answer).Honest (answer.toList ++ given)
  | .tabular next, given => ∀ answer, (next answer).Honest (answer :: given)
  | .root next, given => ∀ answer, (next answer).Honest (answer :: given)
  | .skipSpace next, given => next.Honest given
  | .peek next, given => ∀ token, (next token).Honest given
  | .checkpoint next, given => next.Honest given
  | .rewind _ next, given => next.Honest given
  | .build _ ops next, given =>
    (∀ op ∈ ops, Available given op) ∧ ∀ answer, (next answer).Honest (answer :: given)
  | .domain e next, given => Available given e ∧ ∀ l, (next l).Honest given
  | .compatible e _ next, given => Available given e ∧ ∀ answer, (next answer).Honest given

theorem available_of_mem {given : List (Tree α)} {e : Tree α} (h : e ∈ given) :
    Available given e := Or.inr ⟨e, h, .here e⟩

theorem available_ops {given : List (Tree α)} {e op : Tree α} (h : e ∈ given) (hop : op ∈ e.ops) :
    Available given op := Or.inr ⟨e, h, Tree.occurs_of_mem_ops hop⟩

end Script

/-- The script of the notation, if it has one, is honest from the expression on its left. -/
def Entry.Honest {α : Type} (entry : Entry α) : Prop :=
  ∀ handler, entry.parse = .custom handler → ∀ lhs stop, (handler lhs stop).Honest lhs.toList

namespace Ledger

variable {engine : Engine Nat} {w w' : Ledger}

theorem Faithful.available {given : List Node} (hgiven : ∀ e ∈ given, w.Faithful engine e)
    {e : Node} (h : Script.Available given e) : w.Faithful engine e := by
  rcases h with hleaf | ⟨source, hsource, hoccurs⟩
  · cases e with
    | number value => exact faithful_number value
    | symbol name => exact faithful_symbol name
    | text value => exact faithful_text value
    | call label head ops => cases hleaf
    | applied label head ops => cases hleaf
  · exact (hgiven source hsource).occurs hoccurs

/-! ### What the functions of the reader give -/

/-- An expression, or none, and a place. -/
def Reads (engine : Engine Nat) (w : Ledger)
    (program : StateM Memory (Option Node × List Token)) : Prop :=
  w.Keeps program fun w' found => ∀ e ∈ found.1, w'.Faithful engine e

/-- An expression and a place. -/
def ReadsOne (engine : Engine Nat) (w : Ledger) (program : StateM Memory (Node × List Token)) :
    Prop :=
  w.Keeps program fun w' found => w'.Faithful engine found.1

/-- Expressions and a place. -/
def ReadsAll (engine : Engine Nat) (w : Ledger)
    (program : StateM Memory (List Node × List Token)) : Prop :=
  w.Keeps program fun w' found => ∀ e ∈ found.1, w'.Faithful engine e

/-- An expression and a place, or a rejection. -/
def Accepts (engine : Engine Nat) (w : Ledger)
    (program : StateM Memory (Option (Node × List Token))) : Prop :=
  w.Keeps program fun w' found => ∀ result ∈ found, w'.Faithful engine result.1

/-- An expression that is followed by the place where it ends. -/
theorem Makes.readsOne {program : StateM Memory Node} (h : w.Makes engine program)
    (rest : List Token) : w.ReadsOne engine (program >>= fun e => pure (e, rest)) :=
  h.bind fun _ _ _ he => .pure he

theorem ReadsOne.accepts {program : StateM Memory (Node × List Token)}
    (h : w.ReadsOne engine program) : w.Accepts engine (some <$> program) := by
  refine h.map fun _ _ found hfound => ?_
  simpa using hfound

/-! ### Parts of a reading -/

section

open Reader

variable {index : Nat}

theorem makes_build (head : String) {ops : List Node} (hops : ∀ op ∈ ops, w.Faithful engine op) :
    w.Makes engine (build engine (Memory.host index engine) head ops) := makes_function head hops

theorem keeps_exhausted (w : Ledger) :
    w.Keeps (Memory.host index engine).exhausted fun _ _ => True := .pure trivial

theorem keeps_outOfRange (w : Ledger) :
    w.Keeps (Memory.host index engine).outOfRange fun _ _ => True := .pure trivial

theorem makes_errorAt (code : ErrorCode) (argument : Option String) (start rest : List Token) :
    w.Makes engine (errorAt (Memory.host index engine) code argument start rest) := by
  unfold errorAt
  dsimp only
  split
  · exact (keeps_outOfRange w).bind fun _ _ _ _ => makes_error code argument _
  · exact makes_error code argument _

theorem makes_missing : w.Makes engine (missing (Memory.host index engine)) :=
  makes_error .missing none none

theorem makes_orMissing {operand : Option Node} (h : ∀ e ∈ operand, w.Faithful engine e) :
    w.Makes engine (orMissing (Memory.host index engine) operand) := by
  cases operand with
  | none => exact makes_missing
  | some e => exact .pure (h e rfl)

section

variable {inner : Terminator → List Token → StateM Memory (Option Node × List Token)}
  (hinner : ∀ w stop rest, Reads engine w (inner stop rest))

include hinner

theorem cells_readsAll (fuel : Nat) {w : Ledger} {row : List Node}
    (hrow : ∀ e ∈ row, w.Faithful engine e) (rest : List Token) :
    w.ReadsAll engine (cells (Memory.host index engine) inner fuel row rest) := by
  induction fuel generalizing w row rest with
  | zero => exact (keeps_exhausted w).bind fun _ hw _ _ => .pure (Faithful.mono_all hrow hw)
  | succ fuel ih =>
    refine (hinner w {} rest).bind ?_
    rintro w' hw ⟨cell, rest⟩ hcell
    have hlonger : ∀ e ∈ row ++ [cell.getD (.symbol "Nothing")], w'.Faithful engine e := by
      refine List.forall_mem_append.mpr ⟨Faithful.mono_all hrow hw, ?_⟩
      cases cell with
      | none => simpa using faithful_symbol _
      | some e => simpa using hcell e rfl
    have hrow' := Faithful.mono_all hrow hw
    dsimp only
    split
    · refine ih ?_ _
      split <;> assumption
    · refine .pure ?_
      dsimp only
      split <;> assumption

theorem rows_readsAll (fuel : Nat) {w : Ledger} {table : List Node}
    (htable : ∀ e ∈ table, w.Faithful engine e) (rest : List Token) :
    w.ReadsAll engine (rows engine (Memory.host index engine) inner fuel table rest) := by
  induction fuel generalizing w table rest with
  | zero => exact (keeps_exhausted w).bind fun _ hw _ _ => .pure (Faithful.mono_all htable hw)
  | succ fuel ih =>
    refine (cells_readsAll hinner (rest.length + 1) (by simp) rest).bind ?_
    rintro w' hw ⟨row, rest⟩ hrow
    have hnext : ∀ {w' : Ledger} {table : List Node}, (∀ e ∈ table, w'.Faithful engine e) →
        w'.ReadsAll engine (if nextIs (Token.isCommand "\\\\") rest then
          rows engine (Memory.host index engine) inner fuel table (rest.drop 1)
        else pure (table, rest)) := by
      intro w' table htable
      split
      · exact ih htable _
      · exact .pure htable
    have htable' := Faithful.mono_all htable hw
    simp only [pure_bind]
    split
    · exact hnext htable'
    · refine (makes_build "List" hrow).bind fun w'' hw' list hlist => hnext ?_
      exact List.forall_mem_append.mpr ⟨Faithful.mono_all htable' hw', by simpa using hlist⟩

theorem tabular_readsOne (w : Ledger) (rest : List Token) :
    w.ReadsOne engine (tabular engine (Memory.host index engine) inner rest) := by
  refine (rows_readsAll hinner (rest.length + 1) (by simp) rest).bind ?_
  rintro w' - ⟨table, rest⟩ htable
  exact (makes_build "List" htable).readsOne rest

omit hinner in
theorem leftover_readsOne (w : Ledger) (start : List Token) :
    w.ReadsOne engine (leftover engine (Memory.host index engine) start) := by
  cases start with
  | nil =>
    exact (keeps_outOfRange w).bind fun _ _ _ _ => (makes_errorAt _ _ _ _).readsOne _
  | cons token after => exact (makes_errorAt _ _ _ _).readsOne _

theorem parts_readsAll (fuel : Nat) {w : Ledger} {found : List Node}
    (hfound : ∀ e ∈ found, w.Faithful engine e) (rest : List Token) :
    w.ReadsAll engine (parts engine (Memory.host index engine) inner fuel found rest) := by
  induction fuel generalizing w found rest with
  | zero => exact (keeps_exhausted w).bind fun _ hw _ _ => .pure (Faithful.mono_all hfound hw)
  | succ fuel ih =>
    have hsnoc : ∀ {w' : Ledger} {e : Node}, w.Extends w' → w'.Faithful engine e →
        ∀ x ∈ found ++ [e], w'.Faithful engine x := by
      intro w' e hw he
      exact List.forall_mem_append.mpr ⟨Faithful.mono_all hfound hw, by simpa using he⟩
    unfold parts
    dsimp only
    split
    · exact .pure hfound
    · refine (hinner w {} _).bind ?_
      rintro w' hw ⟨e | e, rest⟩ he
      · refine (leftover_readsOne w' rest).bind ?_
        rintro w'' hw' ⟨e, rest⟩ he
        exact ih (hsnoc (hw.trans hw') he) rest
      · exact ih (hsnoc hw (he e rfl)) rest

omit hinner in
theorem makes_combine {found : List Node} (hfound : ∀ e ∈ found, w.Faithful engine e) :
    w.Makes engine (combine engine (Memory.host index engine) found) := by
  unfold combine
  split
  · exact .pure (faithful_symbol _)
  · exact .pure (by simpa using hfound)
  · exact makes_build "Sequence" hfound

theorem root_readsOne (w : Ledger) (rest : List Token) :
    w.ReadsOne engine (root engine (Memory.host index engine) inner rest) := by
  refine (parts_readsAll hinner (rest.length + 1) (by simp) rest).bind ?_
  rintro w' - ⟨found, rest⟩ hfound
  exact (makes_combine hfound).readsOne rest

/-! ### Notations -/

/-- An honest script comes by faithful expressions only. -/
theorem runScript_reads (script : Script Nat) {w : Ledger} {given : List Node}
    (hscript : script.Honest given) (hgiven : ∀ e ∈ given, w.Faithful engine e)
    (saved : List (List Token)) (rest : List Token) :
    w.Reads engine (runScript engine (Memory.host index engine) inner script saved rest) := by
  induction script generalizing w given saved rest with
  | done result => exact .pure fun e he => Faithful.available hgiven (hscript e he)
  | expression stop next ih =>
    refine (hinner w stop rest).bind ?_
    rintro w' hw ⟨answer, rest⟩ hanswer
    refine ih answer (hscript answer) (List.forall_mem_append.mpr ⟨?_, ?_⟩) saved rest
    · simpa using hanswer
    · exact Faithful.mono_all hgiven hw
  | tabular next ih =>
    refine (tabular_readsOne hinner w rest).bind ?_
    rintro w' hw ⟨answer, rest⟩ hanswer
    exact ih answer (hscript answer)
      (List.forall_mem_cons.mpr ⟨hanswer, Faithful.mono_all hgiven hw⟩) saved rest
  | root next ih =>
    refine (root_readsOne hinner w rest).bind ?_
    rintro w' hw ⟨answer, rest⟩ hanswer
    exact ih answer (hscript answer)
      (List.forall_mem_cons.mpr ⟨hanswer, Faithful.mono_all hgiven hw⟩) saved rest
  | skipSpace next ih => exact ih hscript hgiven saved _
  | peek next ih => exact ih _ (hscript _) hgiven saved rest
  | checkpoint next ih => exact ih hscript hgiven _ rest
  | rewind place next ih => exact ih hscript hgiven saved _
  | build head ops next ih =>
    refine (makes_build head fun op hop => Faithful.available hgiven (hscript.1 op hop)).bind ?_
    intro w' hw answer hanswer
    exact ih answer (hscript.2 answer)
      (List.forall_mem_cons.mpr ⟨hanswer, Faithful.mono_all hgiven hw⟩) saved rest
  | domain e next ih =>
    refine (keeps_domain (Faithful.available hgiven hscript.1)).bind ?_
    intro w' hw l _
    exact ih l (hscript.2 l) (Faithful.mono_all hgiven hw) saved rest
  | compatible e l next ih =>
    refine (keeps_isCompatible index (Faithful.available hgiven hscript.1) _).bind ?_
    intro w' hw answer _
    exact ih answer (hscript.2 answer) (Faithful.mono_all hgiven hw) saved rest

theorem matchfix_readsOne (w : Ledger) (entry : Entry Nat) (head : String)
    (start after : List Token) :
    w.ReadsOne engine
      (matchfix engine (Memory.host index engine) inner entry head start after) := by
  refine (hinner w _ after).bind ?_
  rintro w' - ⟨body, rest⟩ hbody
  dsimp only
  split
  · exact (makes_errorAt _ _ _ _).readsOne _
  · refine (makes_build head ?_).readsOne _
    cases body with
    | none => simp
    | some body =>
      have hfaithful := hbody body rfl
      dsimp only
      split
      · exact hfaithful.ops
      · simpa using hfaithful

theorem byKind_accepts (entry : Entry Nat) {lhs : Option Node}
    (hlhs : ∀ e ∈ lhs, w.Faithful engine e) (stop : Terminator) (start after : List Token) :
    w.Accepts engine
      (byKind engine (Memory.host index engine) inner entry lhs stop start after) := by
  have hreject : w.Accepts engine (pure none) := .pure (by simp)
  unfold byKind
  cases entry.head? with
  | none => exact hreject
  | some head =>
    dsimp only
    cases entry.kind with
    | symbol => exact .pure (by simpa using faithful_symbol head)
    | prefixOp =>
      refine (hinner w _ after).bind ?_
      rintro w' - ⟨operand, rest⟩ hoperand
      refine (makes_orMissing hoperand).bind fun w'' _ operand hoperand => ?_
      exact ((makes_build head (by simpa using hoperand)).readsOne rest).accepts
    | infixOp =>
      cases lhs with
      | none => exact hreject
      | some lhs =>
        have hleft := hlhs lhs rfl
        refine (hinner w _ after).bind ?_
        rintro w' hw ⟨rhs, rest⟩ hrhs
        refine (makes_orMissing hrhs).bind fun w'' hw' rhs hrhs => ?_
        have hops : ∀ op ∈ [lhs, rhs], w''.Faithful engine op := by
          simpa using ⟨hleft.mono (hw.trans hw'), hrhs⟩
        exact ((makes_build head hops).readsOne rest).accepts
    | postfixOp =>
      cases lhs with
      | none => exact hreject
      | some lhs =>
        exact ((makes_build head (by simpa using hlhs lhs rfl)).readsOne after).accepts
    | matchfix => exact (matchfix_readsOne hinner w entry head start after).accepts
    | environment => exact hreject

theorem accept_accepts {found : TriggerMatch Nat} (hhonest : found.entry.Honest)
    {lhs : Option Node} (hlhs : ∀ e ∈ lhs, w.Faithful engine e) (stop : Terminator)
    (start : List Token) :
    w.Accepts engine (accept engine (Memory.host index engine) inner lhs stop start found) := by
  unfold accept
  split
  · rename_i handler hparse
    have hscript := hhonest handler hparse lhs stop
    refine (runScript_reads hinner _ hscript (by simpa using hlhs) [] found.after).bind ?_
    rintro w' - ⟨result, rest⟩ hresult
    refine .pure fun pair hpair => ?_
    obtain ⟨e, he, rfl⟩ := Option.map_eq_some_iff.mp hpair
    exact hresult e he
  · exact byKind_accepts hinner found.entry hlhs stop start found.after

theorem firstAccepted_accepts {candidates : List (TriggerMatch Nat)}
    (hhonest : ∀ found ∈ candidates, found.entry.Honest) {w : Ledger} {lhs : Option Node}
    (hlhs : ∀ e ∈ lhs, w.Faithful engine e) (stop : Terminator) (start : List Token) :
    w.Accepts engine
      (firstAccepted engine (Memory.host index engine) inner lhs stop start candidates) := by
  induction candidates generalizing w with
  | nil => exact .pure (by simp)
  | cons found others ih =>
    obtain ⟨hfound, hothers⟩ := List.forall_mem_cons.mp hhonest
    refine (accept_accepts hinner hfound hlhs stop start).bind ?_
    rintro w' hw (result | result) hresult
    · have hlhs' : ∀ e ∈ lhs, w'.Faithful engine e := fun e he => (hlhs e he).mono hw
      dsimp only
      split
      · refine (keeps_outOfRange w').bind ?_
        rintro w'' hw' - -
        exact ih hothers fun e he => (hlhs' e he).mono hw'
      · exact ih hothers hlhs'
    · exact .pure hresult

/-! ### Operators -/

theorem juxtaposed_accepts {lhs : Node} (hlhs : w.Faithful engine lhs) (stop : Terminator)
    (rest : List Token) :
    w.Accepts engine (juxtaposed engine (Memory.host index engine) inner lhs stop rest) := by
  unfold juxtaposed
  split
  · exact .pure (by simp)
  · rename_i head _
    split
    · exact .pure (by simp)
    · refine (hinner w _ rest).bind ?_
      rintro w' hw ⟨rhs | rhs, rest⟩ hrhs
      · exact .pure (by simp)
      · have hops : ∀ op ∈ [lhs, rhs], w'.Faithful engine op := by
          simpa using ⟨hlhs.mono hw, hrhs rhs rfl⟩
        exact ((makes_build head hops).readsOne rest).accepts

section

variable {entries : List (Entry Nat)} (hindexed : Dictionary.Indexed entries engine.dictionary)
  (hhonest : ∀ entry ∈ entries, entry.Honest)

include hindexed hhonest

theorem operators_readsOne (stop : Terminator) (fuel : Nat) {w : Ledger} {lhs : Node}
    (hlhs : w.Faithful engine lhs) (rest : List Token) :
    w.ReadsOne engine
      (operators engine (Memory.host index engine) inner stop fuel lhs rest) := by
  induction fuel generalizing w lhs rest with
  | zero => exact (keeps_exhausted w).bind fun _ hw _ _ => .pure (hlhs.mono hw)
  | succ fuel ih =>
    unfold operators
    dsimp only
    split
    · exact .pure hlhs
    · split
      · refine (juxtaposed_accepts hinner hlhs stop _).bind ?_
        rintro w' hw (_ | ⟨e, rest⟩) he
        · exact .pure (hlhs.mono hw)
        · exact ih (he _ rfl) rest
      · have hcandidates : ∀ found ∈ (engine.dictionary.candidates (skipSpace rest)
            [.infixOp, .postfixOp]).filter (fun c => stop.minPrec ≤ c.entry.precedence),
            found.entry.Honest := by
          intro found hfound
          exact hhonest _ (hindexed.candidate (List.mem_filter.mp hfound).1).1
        have hlhs' : ∀ e ∈ some lhs, w.Faithful engine e := by simpa using hlhs
        refine (firstAccepted_accepts hinner hcandidates hlhs' stop _).bind ?_
        rintro w' hw (_ | ⟨e, rest⟩) he
        · exact .pure (hlhs.mono hw)
        · exact ih (he _ rfl) rest

/-! ### Primary expressions -/

omit hindexed hhonest in
theorem group_readsOne (w : Ledger) (start : List Token) :
    w.ReadsOne engine (group engine (Memory.host index engine) inner start) := by
  refine (hinner w {} _).bind ?_
  rintro w' - ⟨body, rest⟩ hbody
  dsimp only
  split
  · cases body with
    | none => exact (makes_build "Sequence" (by simp)).readsOne _
    | some body => exact .pure (hbody body rfl)
  · exact (makes_errorAt _ _ _ _).readsOne _

omit hinner hindexed hhonest in
theorem letter_readsOne (w : Ledger) (c : Char) (start : List Token) :
    w.ReadsOne engine (letter engine (Memory.host index engine) c start) := by
  unfold letter
  dsimp only
  split
  · exact (makes_errorAt _ _ _ _).readsOne _
  · exact .pure (faithful_symbol _)

omit hinner hindexed hhonest in
theorem unknownCommand_readsOne (w : Ledger) (name : String) (start : List Token) :
    w.ReadsOne engine (unknownCommand engine (Memory.host index engine) name start) := by
  unfold unknownCommand
  dsimp only
  split
  · exact .pure (faithful_symbol _)
  · exact (makes_errorAt _ _ _ _).readsOne _

omit hinner hindexed hhonest in
theorem unknownLeft_readsOne (w : Ledger) (start : List Token) :
    w.ReadsOne engine (unknownLeft (Memory.host index engine) start) :=
  (makes_errorAt _ _ _ _).readsOne _

omit hindexed hhonest in
theorem blockBody_reads {entry : Entry Nat} (hentry : entry.Honest) (w : Ledger)
    (rest : List Token) :
    w.Reads engine (blockBody engine (Memory.host index engine) inner entry rest) := by
  unfold blockBody
  split
  · rename_i handler hparse
    exact runScript_reads hinner _ (hentry handler hparse none {}) (by simp) [] rest
  · split
    · exact .pure (by simp)
    · refine (tabular_readsOne hinner w rest).bind ?_
      rintro w' - ⟨table, rest⟩ htable
      refine (makes_build _ (by simpa using htable)).bind fun _ _ _ he => .pure ?_
      simpa using he

omit hinner hindexed hhonest in
theorem blockEnd_readsOne (name : String) (start : List Token) {body : Option Node}
    (hbody : ∀ e ∈ body, w.Faithful engine e) (rest : List Token) :
    w.ReadsOne engine (blockEnd (Memory.host index engine) name start body rest) := by
  unfold blockEnd
  split
  · exact (makes_errorAt _ _ _ _).readsOne _
  · split
    · exact .pure (hbody _ rfl)
    · exact (makes_errorAt _ _ _ _).readsOne _

theorem environment_readsOne (w : Ledger) (start : List Token) :
    w.ReadsOne engine (environment engine (Memory.host index engine) inner start) := by
  unfold environment
  split
  · exact (makes_errorAt _ _ _ _).readsOne _
  · split
    · exact (makes_errorAt _ _ _ _).readsOne _
    · rename_i entry hentry
      have hmem := hindexed.environment_mem hentry
      refine (blockBody_reads hinner (hhonest entry hmem) w _).bind ?_
      rintro w' - ⟨body, rest⟩ hbody
      exact blockEnd_readsOne _ start hbody rest

theorem unclaimed_accepts (w : Ledger) (token : Token) (start : List Token) :
    w.Accepts engine (unclaimed engine (Memory.host index engine) inner token start) := by
  have hreject : w.Accepts engine (pure none) := .pure (by simp)
  have herror : ∀ code rest, w.Accepts engine (do
      let e ← errorAt (Memory.host index engine) code none start rest
      pure (some (e, rest))) := by
    intro code rest
    have herror : w.Makes engine (errorAt (Memory.host index engine) code none start rest) :=
      makes_errorAt code none start rest
    exact (herror.readsOne rest).accepts
  unfold unclaimed
  split
  · exact (environment_readsOne hinner hindexed hhonest w start).accepts
  split
  · exact (unknownLeft_readsOne w start).accepts
  split
  · exact (group_readsOne hinner w start).accepts
  · split
    · exact .pure (by simpa using faithful_number _)
    · split
      · exact (letter_readsOne w _ start).accepts
      · split
        · exact hreject
        · exact herror _ _
  · split
    · exact hreject
    · exact (unknownCommand_readsOne w _ start).accepts
  · split
    · exact hreject
    · exact herror _ _

theorem primary_reads (w : Ledger) (stop : Terminator) (rest : List Token) :
    w.Reads engine (primary engine (Memory.host index engine) inner stop rest) := by
  unfold primary
  dsimp only
  split
  · exact .pure (by simp)
  · have hclaimed : w.Accepts engine (firstAccepted engine (Memory.host index engine) inner none
        stop (skipSpace rest)
        (engine.dictionary.candidates (skipSpace rest) [.symbol, .prefixOp, .matchfix])) := by
      refine firstAccepted_accepts hinner ?_ (by simp) stop _
      intro found hfound
      exact hhonest _ (hindexed.candidate hfound).1
    refine hclaimed.bind ?_
    rintro w' - (_ | ⟨e, rest⟩) he
    · cases skipSpace rest with
      | nil => exact (keeps_outOfRange w').bind fun _ _ _ _ => .pure (by simp)
      | cons token after =>
        refine (unclaimed_accepts hinner hindexed hhonest w' token _).bind ?_
        rintro w'' - (_ | ⟨e, rest⟩) he
        · exact .pure (by simp)
        · exact .pure (by simpa using he)
    · exact .pure (by simpa using he)

end

end

/-! ### Whole formulas -/

section

variable {entries : List (Entry Nat)} (hindexed : Dictionary.Indexed entries engine.dictionary)
  (hhonest : ∀ entry ∈ entries, entry.Honest)

include hindexed hhonest

theorem expressionWithin_reads (fuel : Nat) (w : Ledger) (stop : Terminator)
    (rest : List Token) :
    w.Reads engine (expressionWithin engine (Memory.host index engine) fuel stop rest) := by
  induction fuel generalizing w stop rest with
  | zero => exact (keeps_exhausted w).bind fun _ _ _ _ => .pure (by simp)
  | succ fuel ih =>
    refine (primary_reads ih hindexed hhonest w stop rest).bind ?_
    rintro w' - ⟨lhs | lhs, rest⟩ hlhs
    · exact .pure (by simp)
    · refine (operators_readsOne ih hindexed hhonest stop _ (hlhs lhs rfl) rest).bind ?_
      rintro w'' - ⟨e, rest⟩ he
      exact .pure (by simpa using he)

/-- **A formula is faithful to the ledger.** -/
theorem formula_makes (w : Ledger) (tokens : List Token) :
    w.Makes engine (formula engine (Memory.host index engine) tokens) := by
  refine (root_readsOne (expressionWithin_reads hindexed hhonest _) w tokens).bind ?_
  rintro w' - ⟨e, rest⟩ he
  exact .pure he

end

end

end Ledger

end Formula
