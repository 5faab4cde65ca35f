import Formula.Proofs.Domain
import Formula.Proofs.Normalize
import Formula.Session

/-!
  **The ledger of a session.**

  A memory answers for a call by its label alone, so what it holds can only be right if no label is
  ever given to two calls with different heads.  A ledger says, for every label that was given out,
  which domain the head of its call has.  It only grows: a program of the session takes new labels
  and leaves the old lines alone.  A memory is recorded in a ledger if every answer it holds is a
  line of it, and an expression is faithful to a ledger if every call in it is.

  The domain of a head does not depend on symbols.  So an answer from a memory is the answer that
  the engine computes now, also for a group, whose content may be a symbol, since groups are never
  remembered.
-/

namespace Formula

/-- The domain that the head of a call decides. -/
def Engine.headDomain {α : Type} (engine : Engine α) (call : Tree α) : Literal :=
  match call.headName? with
  | some head => engine.functionDomain head
  | none => .anything

/-- The labels given out so far, and the domain of the head of the call that got each. -/
structure Ledger where
  next : Nat
  domains : Nat → Literal

namespace Ledger

/-- A later ledger: the old lines are still there. -/
structure Extends (w w' : Ledger) : Prop where
  next_le : w.next ≤ w'.next
  domains_eq : ∀ label < w.next, w'.domains label = w.domains label

/-- Everything that the memory holds is a line of the ledger. -/
structure Records (w : Ledger) (memory : Memory) : Prop where
  next_eq : memory.next = w.next
  line : ∀ label l, memory.domains.lookup label = some l → label < w.next ∧ w.domains label = l

/-- The labels of all calls in the expression were given out for their heads. -/
def Faithful (engine : Engine Nat) (w : Ledger) (e : Node) : Prop :=
  ∀ call, Tree.Occurs call e → ∀ label ∈ call.label?,
    label < w.next ∧ w.domains label = engine.headDomain call

namespace Extends

theorem refl (w : Ledger) : w.Extends w := ⟨Nat.le_refl _, fun _ _ => rfl⟩

theorem trans {w w' w'' : Ledger} (h : w.Extends w') (h' : w'.Extends w'') : w.Extends w'' := by
  refine ⟨Nat.le_trans h.next_le h'.next_le, ?_⟩
  intro label hlabel
  rw [h'.domains_eq label (Nat.lt_of_lt_of_le hlabel h.next_le), h.domains_eq label hlabel]

end Extends

/-- The ledger with a line for the next label. -/
def add (w : Ledger) (l : Literal) : Ledger where
  next := w.next + 1
  domains label := if label = w.next then l else w.domains label

theorem extends_add (w : Ledger) (l : Literal) : w.Extends (w.add l) := by
  refine ⟨Nat.le_succ _, ?_⟩
  intro label hlabel
  exact if_neg (by omega)

variable {engine : Engine Nat} {w w' : Ledger}

theorem records_empty (domains : Nat → Literal) : Records ⟨0, domains⟩ {} := by
  refine ⟨rfl, ?_⟩
  intro label l h
  cases h

/-! ### Faithful expressions -/

theorem Faithful.mono {e : Node} (h : w.Faithful engine e) (hw : w.Extends w') :
    w'.Faithful engine e := by
  intro call hcall label hlabel
  obtain ⟨hlt, heq⟩ := h call hcall label hlabel
  exact ⟨Nat.lt_of_lt_of_le hlt hw.next_le, (hw.domains_eq label hlt).trans heq⟩

theorem Faithful.mono_all {es : List Node} (h : ∀ e ∈ es, w.Faithful engine e)
    (hw : w.Extends w') : ∀ e ∈ es, w'.Faithful engine e := fun e he => (h e he).mono hw

theorem Faithful.occurs {a e : Node} (h : w.Faithful engine e) (ha : Tree.Occurs a e) :
    w.Faithful engine a := fun call hcall => h call (hcall.trans ha)

theorem Faithful.ops {e : Node} (h : w.Faithful engine e) : ∀ op ∈ e.ops, w.Faithful engine op :=
  fun _ hop => h.occurs (Tree.occurs_of_mem_ops hop)

theorem faithful_number (value : Number) : w.Faithful engine (.number value) := by
  intro call hcall label hlabel
  cases hcall
  cases hlabel

theorem faithful_symbol (name : String) : w.Faithful engine (.symbol name) := by
  intro call hcall label hlabel
  cases hcall
  cases hlabel

theorem faithful_text (value : String) : w.Faithful engine (.text value) := by
  intro call hcall label hlabel
  cases hcall
  cases hlabel

theorem faithful_call {label : Nat} {head : String} {ops : List Node}
    (hlabel : label < w.next ∧ w.domains label = engine.functionDomain head)
    (hops : ∀ op ∈ ops, w.Faithful engine op) : w.Faithful engine (.call label head ops) := by
  intro call hcall
  rcases hcall.call_cases with rfl | ⟨op, hop, hinside⟩
  · intro found hfound
    cases hfound
    exact hlabel
  · exact hops op hop call hinside

theorem faithful_applied {label : Nat} {head : Node} {ops : List Node}
    (hlabel : label < w.next ∧ w.domains label = .anything) (hhead : w.Faithful engine head)
    (hops : ∀ op ∈ ops, w.Faithful engine op) : w.Faithful engine (.applied label head ops) := by
  intro call hcall
  cases hcall with
  | here =>
    intro found hfound
    cases hfound
    exact hlabel
  | appliedHead inside => exact hhead call inside
  | appliedOperand mem inside => exact hops _ mem call inside

/-! ### Programs that keep to a ledger -/

/-- Whatever recorded memory the program starts with, it ends with a recorded one, and its result
    is as told.  The ledger may grow on the way. -/
def Keeps {β : Type} (w : Ledger) (program : StateM Memory β) (result : Ledger → β → Prop) :
    Prop :=
  ∀ memory, w.Records memory →
    ∃ w', w.Extends w' ∧ w'.Records (program.run memory).2 ∧ result w' (program.run memory).1

namespace Keeps

variable {β γ : Type}

theorem pure {result : Ledger → β → Prop} {b : β} (h : result w b) :
    w.Keeps (Pure.pure b) result := fun _ hmemory => ⟨w, .refl w, hmemory, h⟩

theorem bind {program : StateM Memory β} {next : β → StateM Memory γ}
    {middle : Ledger → β → Prop} {result : Ledger → γ → Prop} (h : w.Keeps program middle)
    (hnext : ∀ w', w.Extends w' → ∀ b, middle w' b → w'.Keeps (next b) result) :
    w.Keeps (program >>= next) result := by
  intro memory hmemory
  obtain ⟨w', hw, hmiddle, hb⟩ := h memory hmemory
  obtain ⟨w'', hw', hend, hresult⟩ := hnext w' hw _ hb _ hmiddle
  exact ⟨w'', hw.trans hw', hend, hresult⟩

theorem map {program : StateM Memory β} {f : β → γ} {middle : Ledger → β → Prop}
    {result : Ledger → γ → Prop} (h : w.Keeps program middle)
    (hf : ∀ w', w.Extends w' → ∀ b, middle w' b → result w' (f b)) :
    w.Keeps (f <$> program) result :=
  h.bind fun w' hw b hb => .pure (hf w' hw b hb)

end Keeps

/-- A program that makes one expression, and all the calls in it are in the ledger. -/
def Makes (engine : Engine Nat) (w : Ledger) (program : StateM Memory Node) : Prop :=
  w.Keeps program fun w' e => w'.Faithful engine e

/-- A program that makes several. -/
def MakesAll (engine : Engine Nat) (w : Ledger) (program : StateM Memory (List Node)) : Prop :=
  w.Keeps program fun w' es => ∀ e ∈ es, w'.Faithful engine e

/-- A new label may be used for any head: its line is written then. -/
theorem keeps_fresh (w : Ledger) (l : Literal) :
    w.Keeps Memory.fresh fun w' label => label < w'.next ∧ w'.domains label = l := by
  intro memory hmemory
  refine ⟨w.add l, w.extends_add l, ⟨?_, ?_⟩, ?_⟩
  · exact congrArg (· + 1) hmemory.next_eq
  · intro label known hknown
    obtain ⟨hlt, heq⟩ := hmemory.line label known hknown
    exact ⟨Nat.lt_succ_of_lt hlt, ((w.extends_add l).domains_eq label hlt).trans heq⟩
  · have hlabel : (Memory.fresh.run memory).1 = w.next := hmemory.next_eq
    rw [hlabel]
    exact ⟨Nat.lt_succ_self _, if_pos rfl⟩

/-! ### Domains -/

theorem decide_of_known {memory : Memory} {label : Nat} {known : Literal}
    (h : memory.domains.lookup label = some known) (l : Literal) :
    (Memory.decide label l).run memory = (known, memory) := by
  simp only [Memory.decide, StateT.run_bind, StateT.run_get, pure_bind, h]
  rfl

theorem decide_of_unknown {memory : Memory} {label : Nat}
    (h : memory.domains.lookup label = none) (l : Literal) :
    (Memory.decide label l).run memory =
      (l, { memory with domains := (label, l) :: memory.domains }) := by
  simp only [Memory.decide, StateT.run_bind, StateT.run_get, pure_bind, h]
  rfl

/-- The remembered domain of a call is the one that its head decides, and so is a new one. -/
theorem keeps_decide {label : Nat} {l : Literal} (hlabel : label < w.next ∧ w.domains label = l) :
    w.Keeps (Memory.decide label l) fun _ answer => answer = l := by
  intro memory hmemory
  cases hknown : memory.domains.lookup label with
  | some known =>
    rw [decide_of_known hknown]
    exact ⟨w, .refl w, hmemory, (hmemory.line label known hknown).2.symm.trans hlabel.2⟩
  | none =>
    rw [decide_of_unknown hknown]
    refine ⟨w, .refl w, ⟨hmemory.next_eq, ?_⟩, rfl⟩
    intro other found hfound
    by_cases hother : other = label
    · subst hother
      rw [List.lookup_cons_self] at hfound
      cases hfound
      exact hlabel
    · rw [List.lookup_cons, beq_eq_false_iff_ne.mpr hother] at hfound
      exact hmemory.line other found hfound

/-- **What a memory says is what the engine would say now.** -/
theorem keeps_domain {e : Node} (he : w.Faithful engine e) :
    w.Keeps (Memory.domain engine e) fun _ answer => answer = engine.domain e := by
  fun_induction Engine.domain engine e with
  | case1 value => exact .pure rfl
  | case2 name => exact .pure rfl
  | case3 value => exact .pure rfl
  | case4 label content ih =>
    rw [Memory.domain, if_pos rfl]
    exact ih (he.ops content (by simp [Tree.ops]))
  | case5 label ops hmany =>
    unfold Memory.domain
    rw [if_pos rfl]
    split
    · exact absurd rfl (hmany _)
    · exact .pure rfl
  | case6 label head ops hgroup =>
    unfold Memory.domain
    rw [if_neg hgroup]
    exact keeps_decide (he _ (.here _) label rfl)
  | case7 label head ops => exact keeps_decide (he _ (.here _) label rfl)

theorem keeps_consult (index : Nat) : w.Keeps (Memory.consult index) fun _ _ => True :=
  fun _ hmemory => ⟨w, .refl w, ⟨hmemory.next_eq, hmemory.line⟩, trivial⟩

theorem keeps_isSubdomain (index : Nat) (a b : Domain) :
    w.Keeps (Memory.isSubdomain index a b) fun _ answer => answer = a.isSubdomain b := by
  unfold Memory.isSubdomain
  split
  · exact (keeps_consult index).bind fun _ _ _ _ => .pure rfl
  · exact .pure rfl

theorem keeps_isCompatible (index : Nat) {e : Node} (he : w.Faithful engine e) (d : Domain) :
    w.Keeps (Memory.isCompatible index engine e d)
      fun _ answer => answer = engine.isCompatible e d := by
  refine (keeps_domain he).bind ?_
  rintro w' - known rfl
  exact keeps_isSubdomain index _ d

theorem keeps_ancestors (index : Nat) (d : Domain) :
    w.Keeps (Memory.ancestors index d) fun _ _ => True := by
  unfold Memory.ancestors
  split
  · exact (keeps_consult index).bind fun _ _ _ _ => .pure trivial
  · exact .pure trivial

/-! ### New calls -/

/-- A call that takes its label last. -/
theorem makes_call (head : String) {ops : List Node} (hops : ∀ op ∈ ops, w.Faithful engine op) :
    w.Makes engine ((fun label => .call label head ops) <$> Memory.fresh) :=
  (keeps_fresh w (engine.functionDomain head)).map fun _ hw _ hlabel =>
    faithful_call hlabel (Faithful.mono_all hops hw)

theorem makes_applied {head : Node} {ops : List Node} (hhead : w.Faithful engine head)
    (hops : ∀ op ∈ ops, w.Faithful engine op) :
    w.Makes engine ((fun label => .applied label head ops) <$> Memory.fresh) :=
  (keeps_fresh w .anything).map fun _ hw _ hlabel =>
    faithful_applied hlabel (hhead.mono hw) (Faithful.mono_all hops hw)

theorem makes_apply {head : Node} {ops : List Node} (hhead : w.Faithful engine head)
    (hops : ∀ op ∈ ops, w.Faithful engine op) :
    w.Makes engine ((fun label => Tree.apply label head ops) <$> Memory.fresh) := by
  cases head with
  | symbol name => exact makes_call name hops
  | _ => exact makes_applied hhead hops

mutual

/-- A copy has new labels everywhere. -/
theorem makes_relabel {α : Type} (e : Tree α) (w : Ledger) :
    w.Makes engine (Memory.relabel e) := by
  match e with
  | .number value => exact .pure (faithful_number value)
  | .symbol name => exact .pure (faithful_symbol name)
  | .text value => exact .pure (faithful_text value)
  | .call _ head ops =>
    rw [Memory.relabel]
    exact (makesAll_relabelAll ops w).bind fun _ _ _ hops => makes_call head hops
  | .applied _ head ops =>
    rw [Memory.relabel]
    refine (makes_relabel head w).bind fun w' _ head hhead => ?_
    exact (makesAll_relabelAll ops w').bind fun _ hw _ hops => makes_applied (hhead.mono hw) hops

theorem makesAll_relabelAll {α : Type} (ops : List (Tree α)) (w : Ledger) :
    w.MakesAll engine (Memory.relabelAll ops) := by
  match ops with
  | [] => exact .pure (by simp)
  | op :: rest =>
    rw [Memory.relabelAll]
    refine (makes_relabel op w).bind fun w' _ op hop => ?_
    refine (makesAll_relabelAll rest w').bind fun w'' hw rest hrest => .pure ?_
    exact List.forall_mem_cons.mpr ⟨hop.mono hw, hrest⟩

end

/-- The parts of an error are made one after the other. -/
theorem error_eq_bind (code : ErrorCode) (argument source : Option String) :
    (Tree.error Memory.fresh code argument source : StateM Memory Node) =
      (match argument with
        | some argument =>
          (fun label => .call label "ErrorCode" [.text code.name, .text argument]) <$> Memory.fresh
        | none => pure (.text code.name)) >>= fun code =>
      (match source with
        | some source =>
          (fun label => [.call label "LatexString" [.text source]]) <$> Memory.fresh
        | none => pure []) >>= fun source =>
      (fun label => .call label "Error" (code :: source)) <$> Memory.fresh := by
  cases argument <;> cases source <;> rfl

theorem makes_error (code : ErrorCode) (argument source : Option String) :
    w.Makes engine (Tree.error Memory.fresh code argument source) := by
  rw [error_eq_bind]
  have hcode : w.Makes engine
      (match argument with
        | some argument =>
          (fun label => .call label "ErrorCode" [.text code.name, .text argument]) <$> Memory.fresh
        | none => pure (.text code.name)) := by
    split
    · exact makes_call "ErrorCode" (by simp [faithful_text])
    · exact .pure (faithful_text _)
  refine hcode.bind fun w' _ code hcode => ?_
  have hsource : w'.MakesAll engine
      (match source with
        | some source =>
          (fun label => [.call label "LatexString" [.text source]]) <$> Memory.fresh
        | none => pure []) := by
    split
    · refine (keeps_fresh w' (engine.functionDomain "LatexString")).map fun _ _ _ hlabel => ?_
      simpa using faithful_call hlabel (by simp [faithful_text])
    · exact .pure (by simp)
  refine hsource.bind fun w'' hw source hsource => ?_
  exact makes_call "Error" (List.forall_mem_cons.mpr ⟨hcode.mono hw, hsource⟩)

/-! ### Normal calls -/

theorem makes_emptyTuple : w.Makes engine (Tree.emptyTuple Memory.fresh) :=
  makes_call "Tuple" (by simp)

mutual

theorem makesAll_ungroup {w : Ledger} {e : Node} (he : w.Faithful engine e) :
    w.MakesAll engine (Tree.ungroup Memory.fresh e) := by
  have hself : w.MakesAll engine (pure [e]) := .pure (by simpa using he)
  match e with
  | .call label name ops =>
    have htuple : w.MakesAll engine
        (do let tuple ← Tree.emptyTuple Memory.fresh; pure [tuple]) :=
      makes_emptyTuple.bind fun _ _ tuple htuple => .pure (by simpa using htuple)
    rw [Tree.ungroup_call]
    split
    · split
      · exact makesAll_ungroupAll he.ops
      · split
        · match ops with
          | [] => exact htuple
          | body :: more =>
            dsimp only
            split
            · exact htuple
            · exact makesAll_ungroup (he.ops body (by simp [Tree.ops]))
        · exact hself
    · exact hself
  | .number value => exact hself
  | .symbol name => exact hself
  | .text value => exact hself
  | .applied label head ops => exact hself

theorem makesAll_ungroupAll {w : Ledger} {ops : List Node}
    (hops : ∀ op ∈ ops, w.Faithful engine op) :
    w.MakesAll engine (Tree.ungroupAll Memory.fresh ops) := by
  match ops with
  | [] => exact .pure (by simp)
  | op :: rest =>
    rw [Tree.ungroupAll]
    obtain ⟨hop, hrest⟩ := List.forall_mem_cons.mp hops
    refine (makesAll_ungroup hop).bind fun w' hw here hhere => ?_
    refine (makesAll_ungroupAll (Faithful.mono_all hrest hw)).bind fun w'' hw' others hothers =>
      .pure ?_
    exact List.forall_mem_append.mpr ⟨Faithful.mono_all hhere hw', hothers⟩

end

mutual

theorem faithful_spread {head : String} {e : Node} (he : w.Faithful engine e) :
    ∀ x ∈ Tree.spread head e, w.Faithful engine x := by
  have hself : ∀ x ∈ [e], w.Faithful engine x := by simpa using he
  match e with
  | .call label name ops =>
    rw [Tree.spread]
    split
    · exact faithful_spreadAll he.ops
    · exact hself
  | .number value => exact hself
  | .symbol name => exact hself
  | .text value => exact hself
  | .applied label inner ops => exact hself

theorem faithful_spreadAll {head : String} {ops : List Node}
    (hops : ∀ op ∈ ops, w.Faithful engine op) :
    ∀ x ∈ Tree.spreadAll head ops, w.Faithful engine x := by
  match ops with
  | [] => simp [Tree.spreadAll]
  | op :: rest =>
    obtain ⟨hop, hrest⟩ := List.forall_mem_cons.mp hops
    rw [Tree.spreadAll]
    exact List.forall_mem_append.mpr ⟨faithful_spread hop, faithful_spreadAll hrest⟩

end

theorem faithful_flattenOps {head : String} {ops flat : List Node}
    (hops : ∀ op ∈ ops, w.Faithful engine op) (hflat : Tree.flattenOps? head ops = some flat) :
    ∀ x ∈ flat, w.Faithful engine x := by
  unfold Tree.flattenOps? at hflat
  split at hflat
  · cases hflat
    exact faithful_spreadAll hops
  · cases hflat

theorem makes_flattenCall {e : Node} (he : w.Faithful engine e) :
    w.Makes engine (Tree.flattenCall Memory.fresh e) := by
  unfold Tree.flattenCall
  split
  · split
    · rename_i hflat
      exact makes_call _ (faithful_flattenOps he.ops hflat)
    · exact .pure he
  · exact .pure he

/-- The calls that an engine builds are faithful if their operands are. -/
theorem makes_function (head : String) {ops : List Node}
    (hops : ∀ op ∈ ops, w.Faithful engine op) :
    w.Makes engine (engine.function Memory.fresh head ops) := by
  unfold Engine.function
  split
  · exact makes_call head hops
  · have hflat : w.Keeps (Tree.flattenSequence? Memory.fresh ops) fun w' flat? =>
        ∀ op ∈ flat?.getD ops, w'.Faithful engine op := by
      unfold Tree.flattenSequence?
      split
      · exact (makesAll_ungroupAll hops).map fun _ _ _ hflat => hflat
      · exact .pure hops
    refine hflat.bind fun w' _ flat? hflat => makes_call head ?_
    split
    · cases hspread : Tree.flattenOps? head (flat?.getD ops) with
      | none => exact hflat
      | some spread => exact faithful_flattenOps hflat hspread
    · exact hflat

end Ledger

end Formula
