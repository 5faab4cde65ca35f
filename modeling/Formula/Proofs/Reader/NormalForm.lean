import Formula.Proofs.Standard.Scripts

/-!
  **What is read is in normal form.**

  A call is normal if no operand of it is a sequence or a group that could be opened, and no
  operand of a call of an associative head is a call of that head.  The engine builds only such
  calls from operands in which all calls are normal: the pass that opens calls of an associative
  head brings operands of a call of that head to the surface, and these are neither sequences nor
  groups because that call was normal itself.  An error keeps what is in it, so only valid
  operands count.  A group keeps its operand as it is.
-/

namespace Formula

namespace Engine

variable {engine : Engine Unit}

/-- No operand of the call would be opened by the engine. -/
def NormalCall (engine : Engine Unit) (head : String) (ops : List Expr) : Prop :=
  (∀ op ∈ ops, op.isValidCall "Sequence" = false ∧ op.isValidCall "Delimiter" = false) ∧
    (engine.isAssociative head = true → ∀ op ∈ ops, op.isValidCall head = false)

/-- Every call in the expression is normal, groups apart. -/
def Normal (engine : Engine Unit) (e : Expr) : Prop :=
  ∀ head ops, Tree.Occurs (.call () head ops) e → head ≠ "Delimiter" →
    engine.NormalCall head ops

/-! ### What stands in a normal expression -/

theorem Normal.occurs {a e : Expr} (h : engine.Normal e) (ha : Tree.Occurs a e) :
    engine.Normal a := by
  intro head ops hcall hhead
  exact h head ops (hcall.trans ha) hhead

theorem normal_number (value : Number) : engine.Normal (.number value) := by
  intro head ops hcall
  cases hcall

theorem normal_symbol (name : String) : engine.Normal (.symbol name) := by
  intro head ops hcall
  cases hcall

theorem normal_text (value : String) : engine.Normal (.text value) := by
  intro head ops hcall
  cases hcall

/-- A call is normal all through if its operands are and it is normal itself. -/
theorem normal_call {head : String} {ops : List Expr}
    (hcall : head ≠ "Delimiter" → engine.NormalCall head ops)
    (hops : ∀ op ∈ ops, engine.Normal op) : engine.Normal (.call () head ops) := by
  intro name inner hoccurs hname
  rcases hoccurs.call_cases with heq | ⟨op, hop, hinside⟩
  · cases heq
    exact hcall hname
  · exact hops op hop name inner hinside hname

theorem isValidCall_of_not_grouping {e : Expr} (h : e.isGrouping = false) :
    e.isValidCall "Sequence" = false ∧ e.isValidCall "Delimiter" = false := by
  rwa [Tree.isGrouping_eq, Bool.or_eq_false_iff] at h

/-! ### What the engine builds -/

/-- Opened operands are not opened any further. -/
theorem openedAll_normal {ops : List Expr} (hops : ∀ op ∈ ops, engine.Normal op) :
    ∀ x ∈ Tree.openedAll ops,
      (x.isValidCall "Sequence" = false ∧ x.isValidCall "Delimiter" = false) ∧
        engine.Normal x := by
  intro x hx
  obtain ⟨hnot, hfrom⟩ := Tree.mem_openedAll hx
  refine ⟨isValidCall_of_not_grouping hnot, ?_⟩
  rcases hfrom with rfl | ⟨op, hop, hoccurs⟩
  · refine normal_call ?_ (by simp)
    intro _
    exact ⟨by simp, by simp⟩
  · exact (hops op hop).occurs hoccurs

/-- The pass over an associative head keeps sequences and groups away from the surface. -/
theorem spreadAll_normal {head : String} (hhead : head ≠ "Delimiter") {ops : List Expr}
    (hops : ∀ op ∈ ops,
      (op.isValidCall "Sequence" = false ∧ op.isValidCall "Delimiter" = false) ∧
        engine.Normal op) :
    ∀ x ∈ Tree.spreadAll head ops,
      (x.isValidCall "Sequence" = false ∧ x.isValidCall "Delimiter" = false) ∧
        engine.Normal x := by
  intro x hx
  obtain ⟨-, hmem | ⟨op, hop, inner, hcall, hmem⟩⟩ := Tree.mem_spreadAll hx
  · exact hops x hmem
  · -- `x` was an operand of a call of `head`, and that call was normal
    have hnormal := (hops op hop).2
    have hinner := hnormal head inner hcall hhead
    exact ⟨hinner.1 x hmem, hnormal.occurs (Tree.Occurs.trans (.operand hmem (.here x)) hcall)⟩

theorem call_normal (head : String) {ops : List Expr} (hops : ∀ op ∈ ops, engine.Normal op) :
    engine.Normal (engine.call head ops) := by
  unfold call normalOps
  by_cases hhead : head = "Delimiter"
  · rw [if_pos hhead]
    exact normal_call (fun hnot => absurd hhead hnot) hops
  · rw [if_neg hhead]
    have hopened := openedAll_normal hops
    by_cases hassociative : engine.isAssociative head = true
    · rw [if_pos hassociative]
      have hspread := spreadAll_normal hhead hopened
      refine normal_call ?_ fun x hx => (hspread x hx).2
      intro _
      refine ⟨fun x hx => (hspread x hx).1, ?_⟩
      intro _ x hx
      exact (Tree.mem_spreadAll hx).1
    · rw [if_neg hassociative]
      refine normal_call ?_ fun x hx => (hopened x hx).2
      intro _
      exact ⟨fun x hx => (hopened x hx).1, fun h => absurd h hassociative⟩

/-- An error is built by hand, but it has nothing in it that could be opened. -/
theorem error_normal (code : ErrorCode) (argument source : Option String) :
    engine.Normal (Tree.errorCall code argument source) := by
  have htexts : ∀ head (texts : List String),
      engine.Normal (.call () head (texts.map Tree.text)) := by
    intro head texts
    have hleaf : ∀ op ∈ texts.map Tree.text, ∃ text : String, op = (Tree.text text : Expr) := by
      intro op hop
      obtain ⟨text, -, rfl⟩ := List.mem_map.mp hop
      exact ⟨text, rfl⟩
    refine normal_call (fun _ => ⟨?_, ?_⟩) ?_
    · intro op hop
      obtain ⟨text, rfl⟩ := hleaf op hop
      exact ⟨rfl, rfl⟩
    · intro _ op hop
      obtain ⟨text, rfl⟩ := hleaf op hop
      rfl
    · intro op hop
      obtain ⟨text, rfl⟩ := hleaf op hop
      exact normal_text text
  have hnot : ∀ op ∈ (Tree.errorCall code argument source).ops, ∀ head,
      head ≠ "ErrorCode" → head ≠ "LatexString" → op.isValidCall head = false := by
    intro op hop head hcode hsource
    obtain ⟨text, rfl⟩ | ⟨name, texts, rfl | rfl, rfl⟩ := Tree.mem_errorCall hop
    · rfl
    · simp [Tree.isValidCall, Tree.hasHead, hcode.symm]
    · simp [Tree.isValidCall, Tree.hasHead, hsource.symm]
  refine normal_call (fun _ => ⟨?_, ?_⟩) ?_
  · intro op hop
    exact ⟨hnot op hop _ (by decide) (by decide), hnot op hop _ (by decide) (by decide)⟩
  · intro _ op hop
    exact hnot op hop _ (by decide) (by decide)
  · intro op hop
    obtain ⟨text, rfl⟩ | ⟨name, texts, -, rfl⟩ := Tree.mem_errorCall hop
    · exact normal_text text
    · exact htexts name texts

end Engine

namespace Reader

open Standard

variable {engine : Engine Unit}

theorem keptByScripts_normal (engine : Engine Unit) : KeptByScripts engine engine.Normal where
  elements _ he _ hop := he.occurs (Tree.occurs_of_mem_ops hop)
  build head _ _ hops := Engine.call_normal head hops
  product _ _ ha hb _ _ := Engine.call_normal _ (KeptByScripts.pair ha hb)

/-! ### The whole formula -/

theorem invariant_normal
    (hscripts : ∀ entry ∈ engine.dictionary.entries, ∀ handler,
      entry.parse = .custom handler → handler ∈ scripts) :
    Invariant engine engine.Normal where
  number := Engine.normal_number
  symbol := Engine.normal_symbol
  error := Engine.error_normal
  elements _ he _ hop := he.occurs (Tree.occurs_of_mem_ops hop)
  build head _ _ hops := Engine.call_normal head hops
  script entry hentry handler hparse lhs stop hlhs :=
    (keptByScripts_normal engine).script (hscripts entry hentry handler hparse) lhs stop hlhs

/-- **What is read is in normal form.**  For every accepted dictionary whose scripts are the
    standard ones, whatever the options and the known symbols and functions, and for all tokens,
    every call in the expression is normal, groups apart. -/
theorem parseTokens_normal {entries : List (Entry Unit)}
    (hentries : Dictionary.ofEntries entries = .ok engine.dictionary)
    (hscripts : ∀ entry ∈ entries, ∀ handler, entry.parse = .custom handler → handler ∈ scripts)
    (tokens : List Token) : engine.Normal (engine.parseTokens tokens) := by
  have hindexed := Dictionary.indexed_of_ofEntries hentries
  have hsame := hindexed.entries_eq
  have s : Setting engine engine.host engine.Normal :=
    ⟨engine.host_answers, hsame ▸ hindexed, invariant_normal (hsame ▸ hscripts)⟩
  exact (formula_settles s tokens).2

/-- In `a,(b,c),d` the group in the middle is opened by the list around it. -/
theorem parseTokens_normal_standard :
    Dictionary.ofEntries standardEntries = .ok (Engine.standard : Engine Unit).dictionary ∧
    (∀ entry ∈ (standardEntries : List (Entry Unit)), ∀ handler,
      entry.parse = .custom handler → handler ∈ scripts) ∧
    Engine.standard.Normal (Engine.standard.parseTokens (tokenize "a,(b,c),d")) :=
  ⟨Engine.standard_accepted, scripts_standardEntries,
    parseTokens_normal Engine.standard_accepted scripts_standardEntries _⟩

end Reader

end Formula
