import Formula.Proofs.Dictionary.Candidates

/-!
  **Which lists of entries are dictionaries.**

  An entry can be wrong in several ways at once.  `faults` lists all that is wrong with it, in the
  order in which its parts are looked at, and does not stop at the first.  Building a dictionary
  does stop there: of all the faults in a list of entries it reports the first one, and it accepts
  the list if there are none.  What is accepted is indexed by its entries, and every trigger in it
  that is matched in a formula, opening or closing, has a first token and no blanks.
-/

namespace Formula

variable {α : Type}

/-! ### Blank triggers -/

namespace Trigger

/-- Does the trigger stand for nothing but blanks? -/
def isBlank (trigger : Trigger) : Bool := (tokenize trigger.latex).all Token.isSpace

theorem isBlank_iff {trigger : Trigger} :
    trigger.isBlank = true ↔ ∀ t ∈ tokenize trigger.latex, t = .space := by
  rw [isBlank, List.all_eq_true]
  have hspace : ∀ t : Token, t.isSpace = true ↔ t = .space := by
    intro t
    cases t <;> simp [Token.isSpace]
  simp only [hspace]

theorem isEmpty_eq (trigger : Trigger) : trigger.isEmpty = trigger.isBlank := by
  rw [isEmpty, trigger.tokens_eq, triggerTokens, isBlank, Bool.eq_iff_iff]
  simp

/-- A trigger that is not blank has tokens, and no blanks among them. -/
theorem tokens_of_not_blank {trigger : Trigger} (h : trigger.isBlank = false) :
    trigger.tokens ≠ [] ∧ .space ∉ trigger.tokens := by
  constructor
  · intro hnil
    rw [← isEmpty_eq, isEmpty, hnil] at h
    cases h
  · intro hspace
    cases trigger.not_isSpace .space hspace

end Trigger

namespace Entry

/-! ### Faults -/

/-- The triggers that nothing would match.  Those of an environment are names and may be blank. -/
def triggerFaults (entry : Entry α) : List DictionaryError :=
  if entry.kind = .environment then []
  else (entry.triggers.filter Trigger.isBlank).map fun trigger => .emptyTrigger trigger.latex

/-- What is wrong with the closing trigger of a pair. -/
def closeFaults (entry : Entry α) : List DictionaryError :=
  match entry.close with
  | none => [.missingClose entry.label]
  | some close => if close.isBlank then [.emptyTrigger close.latex] else []

/-- All that is wrong with an entry, in the order in which it is looked for. -/
def faults (entry : Entry α) : List DictionaryError :=
  (if entry.triggers.isEmpty && entry.name.isNone then [.missingTrigger entry.label] else []) ++
  (if entry.head?.isNone && !entry.isCustom then [.missingHead entry.label] else []) ++
  entry.triggerFaults ++ (if entry.kind = .matchfix then entry.closeFaults else [])

/-- The entry belongs to no dictionary. -/
inductive Malformed (entry : Entry α) : Prop where
  | unreachable (triggers : entry.triggers = []) (name : entry.name = none)
  | headless (head : entry.head? = none) (script : entry.isCustom = false)
  | blankTrigger (kind : entry.kind ≠ .environment) {trigger : Trigger}
      (mem : trigger ∈ entry.triggers) (blank : ∀ t ∈ tokenize trigger.latex, t = .space)
  | unclosed (kind : entry.kind = .matchfix) (close : entry.close = none)
  | blankClose (kind : entry.kind = .matchfix) {close : Trigger}
      (mem : entry.close = some close) (blank : ∀ t ∈ tokenize close.latex, t = .space)

theorem head?_triggerFaults (entry : Entry α) :
    entry.triggerFaults.head? =
      (entry.matchedTriggers.find? Trigger.isEmpty).map fun trigger =>
        .emptyTrigger trigger.latex := by
  rw [funext Trigger.isEmpty_eq, triggerFaults, matchedTriggers]
  split
  · rfl
  · rw [List.head?_map, List.head?_filter]

/-- The defect of an entry is the first of its faults. -/
theorem defect?_eq_head? (entry : Entry α) : entry.defect? = entry.faults.head? := by
  unfold defect? faults
  split
  · rfl
  split
  · rfl
  rw [List.nil_append, List.nil_append, List.head?_append, head?_triggerFaults]
  cases entry.matchedTriggers.find? Trigger.isEmpty with
  | some trigger => rfl
  | none =>
    rw [Option.map_none, Option.none_or]
    dsimp only
    split
    · unfold closeFaults
      cases entry.close with
      | none => rfl
      | some close =>
        simp only [Trigger.isEmpty_eq]
        split <;> rfl
    · rfl

theorem triggerFaults_eq_nil_iff {entry : Entry α} :
    entry.triggerFaults = [] ↔
      (entry.kind ≠ .environment → ∀ trigger ∈ entry.triggers, trigger.isBlank = false) := by
  unfold triggerFaults
  split
  · rename_i hkind
    exact iff_of_true rfl fun hne => absurd hkind hne
  · rename_i hkind
    rw [List.map_eq_nil_iff, List.filter_eq_nil_iff]
    simp [hkind]

theorem closeFaults_eq_nil_iff {entry : Entry α} :
    entry.closeFaults = [] ↔ ∃ close, entry.close = some close ∧ close.isBlank = false := by
  unfold closeFaults
  cases entry.close <;> simp

theorem faults_eq_nil_iff {entry : Entry α} :
    entry.faults = [] ↔
      ¬ (entry.triggers = [] ∧ entry.name = none) ∧
      ¬ (entry.head? = none ∧ entry.isCustom = false) ∧
      (entry.kind ≠ .environment → ∀ trigger ∈ entry.triggers, trigger.isBlank = false) ∧
      (entry.kind = .matchfix →
        ∃ close, entry.close = some close ∧ close.isBlank = false) := by
  rw [faults, List.append_eq_nil_iff, List.append_eq_nil_iff, List.append_eq_nil_iff,
    triggerFaults_eq_nil_iff, and_assoc, and_assoc]
  simp [closeFaults_eq_nil_iff]

/-- There is nothing wrong with an entry exactly if it is not malformed. -/
theorem faults_eq_nil_iff_not_malformed {entry : Entry α} :
    entry.faults = [] ↔ ¬ entry.Malformed := by
  rw [faults_eq_nil_iff]
  constructor
  · rintro ⟨hreached, hhead, htriggers, hclose⟩ h
    cases h with
    | unreachable triggers name => exact hreached ⟨triggers, name⟩
    | headless head script => exact hhead ⟨head, script⟩
    | blankTrigger kind mem blank =>
      have hblank := htriggers kind _ mem
      rw [Trigger.isBlank_iff.mpr blank] at hblank
      cases hblank
    | unclosed kind close =>
      obtain ⟨_, hsome, -⟩ := hclose kind
      rw [close] at hsome
      cases hsome
    | blankClose kind mem blank =>
      obtain ⟨_, hsome, hblank⟩ := hclose kind
      rw [mem] at hsome
      cases hsome
      rw [Trigger.isBlank_iff.mpr blank] at hblank
      cases hblank
  · intro hfine
    refine ⟨?_, ?_, ?_, ?_⟩
    · rintro ⟨triggers, name⟩
      exact hfine (.unreachable triggers name)
    · rintro ⟨head, script⟩
      exact hfine (.headless head script)
    · intro kind trigger mem
      rw [← Bool.not_eq_true, Trigger.isBlank_iff]
      intro blank
      exact hfine (.blankTrigger kind mem blank)
    · intro kind
      rcases hclose : entry.close with _ | close
      · exact absurd (.unclosed kind hclose) hfine
      · refine ⟨close, rfl, ?_⟩
        rw [← Bool.not_eq_true, Trigger.isBlank_iff]
        intro blank
        exact hfine (.blankClose kind hclose blank)

end Entry

/-! ### Building a dictionary -/

namespace Dictionary

/-- Registration goes on up to the first fault. -/
theorem foldlM_register_error_iff {entries : List (Entry α)} {error : DictionaryError}
    {d : Dictionary α} :
    entries.foldlM register d = .error error ↔
      (entries.flatMap Entry.faults).head? = some error := by
  induction entries generalizing d with
  | nil =>
    constructor <;> intro h <;> cases h
  | cons entry entries ih =>
    rw [List.foldlM_cons, register_eq, entry.defect?_eq_head?, List.flatMap_cons,
      List.head?_append]
    rcases entry.faults.head? with _ | fault
    · rw [Option.none_or, ← ih]
      rfl
    · rw [Option.some_or]
      constructor <;> intro h <;> cases h <;> rfl

theorem ofEntries_error_iff {entries : List (Entry α)} {error : DictionaryError} :
    ofEntries entries = .error error ↔
      (entries.flatMap Entry.faults).head? = some error :=
  foldlM_register_error_iff

/-- The entries of a dictionary have no faults. -/
theorem Indexed.faults_eq_nil {entries : List (Entry α)} {d : Dictionary α}
    (hd : Indexed entries d) {entry : Entry α} (h : entry ∈ entries) : entry.faults = [] := by
  rw [← List.head?_eq_none_iff, ← Entry.defect?_eq_head?]
  exact hd.sound entry h

/-- **A list of entries is a dictionary unless one of them is malformed.**  Of all the faults in
    the list the first is reported, and an accepted list is indexed as its entries say. -/
theorem ofEntries_exact (entries : List (Entry α)) :
    ((∃ error, ofEntries entries = .error error) ↔ ∃ entry ∈ entries, entry.Malformed) ∧
    (∀ error, ofEntries entries = .error error ↔
      (entries.flatMap Entry.faults).head? = some error) ∧
    ∀ d, ofEntries entries = .ok d →
      d.entries = entries ∧
      (∀ entry ∈ entries, entry.kind ≠ .environment → ∀ trigger ∈ entry.triggers,
        trigger.tokens ≠ [] ∧ .space ∉ trigger.tokens) ∧
      (∀ entry ∈ entries, entry.kind = .matchfix → ∃ close, entry.close = some close ∧
        close.tokens ≠ [] ∧ .space ∉ close.tokens) ∧
      (∀ first, d.readings first = entries.flatMap (Entry.readingsAt first)) ∧
      (∀ name, d.byName? name = (entries.find? fun entry => entry.name == some name) ∧
        ∀ entry ∈ d.byName? name, entry.name = some name) ∧
      (∀ text, d.environment? text = entries.find? fun entry =>
        entry.kind == .environment && entry.triggers.any (·.latex == text)) ∧
      (∀ token, d.isCloser token = true ↔ ∃ entry ∈ entries, entry.kind = .matchfix ∧
        ∃ close, entry.close = some close ∧ close.tokens.head? = some token) := by
  refine ⟨?_, fun error => ofEntries_error_iff, ?_⟩
  · have hsome : (∃ error, ofEntries entries = .error error) ↔
        ¬ ∀ entry ∈ entries, entry.faults = [] := by
      rw [← List.flatMap_eq_nil_iff, ← ne_eq, ← List.isSome_head?, Option.isSome_iff_exists]
      simp only [ofEntries_error_iff]
    rw [hsome]
    simp only [Entry.faults_eq_nil_iff_not_malformed, Classical.not_forall, Classical.not_not,
      exists_prop]
  · intro d hd
    have hindexed := indexed_of_ofEntries hd
    refine ⟨hindexed.entries_eq, ?_, ?_, hindexed.readings_eq, ?_, hindexed.environment_eq, ?_⟩
    · intro entry hentry hkind trigger htrigger
      have hfaults := Entry.faults_eq_nil_iff.mp (hindexed.faults_eq_nil hentry)
      exact Trigger.tokens_of_not_blank (hfaults.2.2.1 hkind trigger htrigger)
    · intro entry hentry hkind
      have hfaults := Entry.faults_eq_nil_iff.mp (hindexed.faults_eq_nil hentry)
      obtain ⟨close, hclose, hblank⟩ := hfaults.2.2.2 hkind
      exact ⟨close, hclose, Trigger.tokens_of_not_blank hblank⟩
    · intro name
      refine ⟨hindexed.name_eq name, ?_⟩
      intro entry hentry
      rw [hindexed.name_eq] at hentry
      have hnamed := List.find?_some (Option.mem_def.mp hentry)
      exact beq_iff_eq.mp hnamed
    · intro token
      rw [hindexed.closer_eq, List.any_eq_true]
      simp [Entry.closesWith, Option.any_eq_true]

/-- A synonym in front of two notations of one name, two blocks of one text, and a pair. -/
def mixedEntries : List (Entry Unit) :=
  [.synonym .symbol "Positive" ["\\R^\x7b+\x7d"], .symbol "Positive" "\\R ^ +",
   .symbol "Positive" "\\R_+", .environment "Matrix" "matrix", .environment "Table" "matrix",
   .matchfix "Group" "\\left (" "\\right )"]

theorem ofEntries_exact_mixed :
    (∃ d, ofEntries mixedEntries = .ok d ∧
      d.byName? "Positive" = some (.symbol "Positive" "\\R ^ +") ∧
      d.environment? "matrix" = some (.environment "Matrix" "matrix") ∧
      d.isCloser (.command "\\right") = true) ∧
    ofEntries (mixedEntries ++
      [.matchfix "Bars" "|" " ", .symbol "Blank" " ", .synonym .symbol "Lost" []]) =
      .error (.emptyTrigger " ") := by
  constructor
  · obtain ⟨d, hd⟩ : ∃ d, ofEntries mixedEntries = .ok d :=
      exists_ofEntries_of_all (by decide +kernel)
    obtain ⟨-, -, -, -, hname, henvironment, hcloser⟩ := (ofEntries_exact mixedEntries).2.2 d hd
    refine ⟨d, hd, (hname "Positive").1, henvironment "matrix", ?_⟩
    rw [hcloser]
    exact ⟨.matchfix "Group" "\\left (" "\\right )", by simp [mixedEntries], rfl,
      .ofLatex "\\right )", rfl, by decide +kernel⟩
  · exact ((ofEntries_exact _).2.1 _).mpr (by decide +kernel)

end Dictionary

end Formula
