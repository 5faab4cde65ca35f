import Formula.Dictionary

/-!
  **What a dictionary knows after its entries are registered.**

  A dictionary keeps several tables beside the list of its entries.  `Indexed entries d` says what
  each table answers in terms of that list alone: the readings that start with a token are those of
  the entries in order, a name belongs to the first entry that bears it, a text to the first
  environment that has it as a trigger, and a token is a closer if some matchfix entry ends with
  it.  Registering one more entry keeps this, so every dictionary that is accepted has it.
-/

namespace Formula

variable {α : Type}

namespace Entry

/-- The ways to read an entry that start with the given token. -/
def readingsAt (first : Token) (entry : Entry α) : List (Reading α) :=
  (entry.matchedTriggers.filter fun t => t.tokens.head? == some first).map fun t => ⟨entry, t⟩

/-- Is this an environment that stands in the source under the given text? -/
def isEnvironment (text : String) (entry : Entry α) : Bool :=
  entry.kind == .environment && entry.triggers.any (·.latex == text)

/-- Does the token start the closing trigger of this entry? -/
def closesWith (token : Token) (entry : Entry α) : Bool :=
  entry.kind == .matchfix && entry.close.any (·.tokens.head? == some token)

end Entry

namespace Dictionary

/-! ### The tables -/

theorem lookup_addToKey {κ υ : Type} [DecidableEq κ] (key k : κ) (value : υ)
    (table : List (κ × List υ)) :
    (addToKey key value table).lookup k =
      if k = key then some ((table.lookup key).getD [] ++ [value]) else table.lookup k := by
  induction table with
  | nil =>
    by_cases h : k = key
    · simp [addToKey, h]
    · have hne : (k == key) = false := by simpa using h
      simp [addToKey, List.lookup_cons, h, hne]
  | cons pair table ih =>
    obtain ⟨k', values⟩ := pair
    unfold addToKey
    by_cases hk' : k' = key
    · subst hk'
      by_cases h : k = k'
      · simp [h]
      · have hne : (k == k') = false := by simpa using h
        simp [List.lookup_cons, h, hne]
    · rw [if_neg hk']
      have hne' : (key == k') = false := by simpa using fun h => hk' h.symm
      by_cases hkk' : k = k'
      · subst hkk'
        simp [hk']
      · have hne : (k == k') = false := by simpa using hkk'
        simp only [List.lookup_cons, hne, hne', ih]

theorem lookup_addIfNew {κ υ : Type} [BEq κ] [LawfulBEq κ] (key k : κ) (value : υ)
    (table : List (κ × υ)) :
    (addIfNew key value table).lookup k =
      (table.lookup k).or (if k == key then some value else none) := by
  have happend : ∀ l : List (κ × υ),
      (l ++ [(key, value)]).lookup k =
        (l.lookup k).or (if k == key then some value else none) := by
    intro l
    induction l with
    | nil => by_cases h : (k == key) = true <;> simp [List.lookup_cons, h]
    | cons pair l ih =>
      obtain ⟨k', v⟩ := pair
      rw [List.cons_append, List.lookup_cons, List.lookup_cons, ih]
      cases k == k' with
      | true => rfl
      | false => rfl
  unfold addIfNew
  split
  · rename_i hsome
    by_cases h : (k == key) = true
    · obtain ⟨known, hknown⟩ := Option.isSome_iff_exists.mp hsome
      rw [eq_of_beq h, hknown]
      rfl
    · simp [h]
  · exact happend table

/-! ### Registering one reading, one environment, one closer -/

theorem readings_addReading (d : Dictionary α) (reading : Reading α) (first : Token) :
    (d.addReading reading).readings first =
      d.readings first ++
        (if reading.trigger.tokens.head? == some first then [reading] else []) := by
  unfold addReading readings
  split
  · rename_i heq
    simp [heq]
  · rename_i token rest heq
    simp only [heq, List.head?_cons, lookup_addToKey]
    by_cases h : first = token
    · simp [h]
    · have hne : ¬ token = first := fun h' => h h'.symm
      simp [h, hne]

/-- Registering readings changes the table of readings only. -/
theorem addReading_rest (d : Dictionary α) (reading : Reading α) :
    (d.addReading reading).entries = d.entries ∧
      (d.addReading reading).environments = d.environments ∧
      (d.addReading reading).closers = d.closers ∧
      (d.addReading reading).names = d.names := by
  unfold addReading
  split <;> exact ⟨rfl, rfl, rfl, rfl⟩

/-- Registering all the readings of an entry. -/
theorem foldl_addReading (entry : Entry α) (triggers : List Trigger) (d : Dictionary α) :
    let d' := triggers.foldl (fun d trigger => d.addReading ⟨entry, trigger⟩) d
    (∀ first, d'.readings first = d.readings first ++
      (triggers.filter fun t => t.tokens.head? == some first).map fun t => ⟨entry, t⟩) ∧
      d'.entries = d.entries ∧ d'.environments = d.environments ∧ d'.closers = d.closers ∧
      d'.names = d.names := by
  induction triggers generalizing d with
  | nil => exact ⟨fun first => by simp, rfl, rfl, rfl, rfl⟩
  | cons trigger triggers ih =>
    obtain ⟨hreadings, hentries, henvironments, hclosers, hnames⟩ :=
      ih (d.addReading ⟨entry, trigger⟩)
    obtain ⟨kentries, kenvironments, kclosers, knames⟩ := addReading_rest d ⟨entry, trigger⟩
    refine ⟨?_, hentries.trans kentries, henvironments.trans kenvironments,
      hclosers.trans kclosers, hnames.trans knames⟩
    intro first
    rw [List.foldl_cons, hreadings first, readings_addReading, List.append_assoc]
    by_cases h : (trigger.tokens.head? == some first) = true
    · simp [h]
    · simp [h]

/-- Registering all the texts of an environment. -/
theorem foldl_addEnvironment (entry : Entry α) (triggers : List Trigger) (d : Dictionary α) :
    let d' := triggers.foldl (fun d trigger => d.addEnvironment entry trigger) d
    (∀ text, d'.environment? text = (d.environment? text).or
      (if triggers.any (·.latex == text) then some entry else none)) ∧
      d'.entries = d.entries ∧ d'.byFirstToken = d.byFirstToken ∧ d'.closers = d.closers ∧
      d'.names = d.names := by
  induction triggers generalizing d with
  | nil => exact ⟨fun text => by simp, rfl, rfl, rfl, rfl⟩
  | cons trigger triggers ih =>
    obtain ⟨henvironments, hentries, hreadings, hclosers, hnames⟩ :=
      ih (d.addEnvironment entry trigger)
    refine ⟨?_, hentries, hreadings, hclosers, hnames⟩
    intro text
    have hone : (d.addEnvironment entry trigger).environment? text =
        (d.environment? text).or (if text == trigger.latex then some entry else none) :=
      lookup_addIfNew trigger.latex text entry d.environments
    rw [List.foldl_cons, henvironments text, hone, Option.or_assoc]
    by_cases h : trigger.latex = text
    · simp [h]
    · have hne : ¬ text = trigger.latex := fun h' => h h'.symm
      simp [h, hne]

theorem isCloser_addCloser (d : Dictionary α) (close : Trigger) (token : Token) :
    (d.addCloser close).isCloser token =
      (d.isCloser token || close.tokens.head? == some token) := by
  unfold addCloser isCloser
  split
  · rename_i heq
    simp [heq]
  · rename_i first rest heq
    rw [heq, List.head?_cons, Bool.eq_iff_iff]
    simp only [List.contains_iff_mem, List.mem_insert_iff, Bool.or_eq_true, beq_iff_eq,
      Option.some.injEq]
    constructor
    · rintro (rfl | h)
      · exact Or.inr rfl
      · exact Or.inl h
    · rintro (h | rfl)
      · exact Or.inr h
      · exact Or.inl rfl

/-! ### Registering entries -/

/-- The tables of a dictionary hold exactly what its entries say. -/
structure Indexed (entries : List (Entry α)) (d : Dictionary α) : Prop where
  entries_eq : d.entries = entries
  readings_eq : ∀ first, d.readings first = entries.flatMap (Entry.readingsAt first)
  environment_eq : ∀ text, d.environment? text = entries.find? (Entry.isEnvironment text)
  closer_eq : ∀ token, d.isCloser token = entries.any (Entry.closesWith token)
  name_eq : ∀ name, d.byName? name = entries.find? (·.name == some name)
  sound : ∀ entry ∈ entries, entry.defect? = none

theorem indexed_empty : Indexed ([] : List (Entry α)) empty where
  entries_eq := rfl
  readings_eq _ := rfl
  environment_eq _ := rfl
  closer_eq _ := rfl
  name_eq _ := rfl
  sound _ h := by cases h

/-- The first step of a registration: the entry itself and its triggers. -/
def addTriggers (d : Dictionary α) (entry : Entry α) : Dictionary α :=
  let d := { d with entries := d.entries ++ [entry] }
  if entry.kind = .environment then entry.triggers.foldl (·.addEnvironment entry ·) d
  else entry.triggers.foldl (fun d trigger => d.addReading ⟨entry, trigger⟩) d

theorem addTriggers_tables (d : Dictionary α) (entry : Entry α) :
    (d.addTriggers entry).entries = d.entries ++ [entry] ∧
      (∀ first, (d.addTriggers entry).readings first =
        d.readings first ++ entry.readingsAt first) ∧
      (∀ text, (d.addTriggers entry).environment? text =
        (d.environment? text).or (if entry.isEnvironment text then some entry else none)) ∧
      (d.addTriggers entry).closers = d.closers ∧ (d.addTriggers entry).names = d.names := by
  unfold addTriggers
  by_cases hkind : entry.kind = .environment
  · obtain ⟨henvironments, hentries, hreadings, hclosers, hnames⟩ :=
      foldl_addEnvironment entry entry.triggers { d with entries := d.entries ++ [entry] }
    simp only [if_pos hkind]
    refine ⟨hentries, ?_, ?_, hclosers, hnames⟩
    · intro first
      have hnone : entry.readingsAt first = [] := by
        simp [Entry.readingsAt, Entry.matchedTriggers, hkind]
      rw [hnone, List.append_nil]
      unfold readings
      rw [hreadings]
    · intro text
      rw [henvironments text]
      simp only [Entry.isEnvironment, hkind, beq_self_eq_true, Bool.true_and]
      rfl
  · obtain ⟨hreadings, hentries, henvironments, hclosers, hnames⟩ :=
      foldl_addReading entry entry.triggers { d with entries := d.entries ++ [entry] }
    simp only [if_neg hkind]
    refine ⟨hentries, ?_, ?_, hclosers, hnames⟩
    · intro first
      rw [hreadings first]
      simp only [Entry.readingsAt, Entry.matchedTriggers, if_neg hkind]
      rfl
    · intro text
      have hno : entry.isEnvironment text = false := by
        simp [Entry.isEnvironment, hkind]
      rw [hno]
      unfold environment?
      rw [henvironments]
      simp

/-- The second step: the closing trigger of a matchfix entry. -/
def addClosing (d : Dictionary α) (entry : Entry α) : Dictionary α :=
  match entry.kind, entry.close with
  | .matchfix, some close => d.addCloser close
  | _, _ => d

theorem addClosing_tables (d : Dictionary α) (entry : Entry α) :
    (∀ token, (d.addClosing entry).isCloser token =
      (d.isCloser token || entry.closesWith token)) ∧
      (d.addClosing entry).entries = d.entries ∧
      (d.addClosing entry).byFirstToken = d.byFirstToken ∧
      (d.addClosing entry).environments = d.environments ∧
      (d.addClosing entry).names = d.names := by
  unfold addClosing
  split
  · rename_i close hkind hclose
    refine ⟨?_, ?_⟩
    · intro token
      rw [isCloser_addCloser]
      simp [Entry.closesWith, hkind, hclose]
    · unfold addCloser
      split <;> exact ⟨rfl, rfl, rfl, rfl⟩
  · rename_i hother
    refine ⟨?_, rfl, rfl, rfl, rfl⟩
    intro token
    have hno : entry.closesWith token = false := by
      unfold Entry.closesWith
      rw [Bool.and_eq_false_iff]
      by_cases hkind : entry.kind = .matchfix
      · right
        cases hclose : entry.close with
        | none => rfl
        | some close => exact absurd hclose (hother close hkind)
      · left
        simpa using hkind
    rw [hno, Bool.or_false]

/-- The last step: the name, unless an earlier entry bears it. -/
def addName (d : Dictionary α) (entry : Entry α) : Dictionary α :=
  match entry.name with
  | some name => { d with names := addIfNew name entry d.names }
  | none => d

theorem addName_tables (d : Dictionary α) (entry : Entry α) :
    (∀ name, (d.addName entry).byName? name =
      (d.byName? name).or (if entry.name == some name then some entry else none)) ∧
      (d.addName entry).entries = d.entries ∧
      (d.addName entry).byFirstToken = d.byFirstToken ∧
      (d.addName entry).environments = d.environments ∧
      (d.addName entry).closers = d.closers := by
  unfold addName
  split
  · rename_i own hown
    refine ⟨?_, rfl, rfl, rfl, rfl⟩
    intro name
    have hswap : (entry.name == some name) = (name == own) := by
      rw [hown, Bool.eq_iff_iff, beq_iff_eq, beq_iff_eq, Option.some.injEq]
      exact eq_comm
    rw [hswap]
    exact lookup_addIfNew own name entry d.names
  · rename_i hnone
    refine ⟨?_, rfl, rfl, rfl, rfl⟩
    intro name
    rw [hnone]
    simp

/-- Registration is refused for an entry with a defect and otherwise adds to every table. -/
theorem register_eq (d : Dictionary α) (entry : Entry α) :
    d.register entry =
      match entry.defect? with
      | some error => .error error
      | none => .ok (((d.addTriggers entry).addClosing entry).addName entry) := by
  unfold register
  cases entry.defect? with
  | some error => rfl
  | none =>
    unfold addName
    cases entry.name <;> rfl

theorem Indexed.register {entries : List (Entry α)} {d d' : Dictionary α} {entry : Entry α}
    (h : Indexed entries d) (hd' : d.register entry = .ok d') :
    Indexed (entries ++ [entry]) d' := by
  rw [register_eq] at hd'
  cases hdefect : entry.defect? with
  | some error =>
    rw [hdefect] at hd'
    cases hd'
  | none =>
    rw [hdefect] at hd'
    cases hd'
    obtain ⟨tentries, treadings, tenvironments, tclosers, tnames⟩ := addTriggers_tables d entry
    obtain ⟨cclosers, centries, creadings, cenvironments, cnames⟩ :=
      addClosing_tables (d.addTriggers entry) entry
    obtain ⟨nnames, nentries, nreadings, nenvironments, nclosers⟩ :=
      addName_tables ((d.addTriggers entry).addClosing entry) entry
    constructor
    · rw [nentries, centries, tentries, h.entries_eq]
    · intro first
      have hsame : (((d.addTriggers entry).addClosing entry).addName entry).readings first =
          (d.addTriggers entry).readings first := by
        simp only [readings, nreadings, creadings]
      rw [hsame, treadings first, h.readings_eq first]
      simp
    · intro text
      have hsame : (((d.addTriggers entry).addClosing entry).addName entry).environment? text =
          (d.addTriggers entry).environment? text := by
        simp only [environment?, nenvironments, cenvironments]
      rw [hsame, tenvironments text, h.environment_eq text, List.find?_append,
        List.find?_singleton]
    · intro token
      have hbefore : (d.addTriggers entry).isCloser token = d.isCloser token := by
        simp only [isCloser, tclosers]
      have hafter : (((d.addTriggers entry).addClosing entry).addName entry).isCloser token =
          ((d.addTriggers entry).addClosing entry).isCloser token := by
        simp only [isCloser, nclosers]
      rw [hafter, cclosers token, hbefore, h.closer_eq token]
      simp
    · intro name
      have hbefore : ((d.addTriggers entry).addClosing entry).byName? name = d.byName? name := by
        simp only [byName?, cnames, tnames]
      rw [nnames name, hbefore, h.name_eq name, List.find?_append, List.find?_singleton]
    · intro e he
      rcases List.mem_append.mp he with he | he
      · exact h.sound e he
      · rw [List.mem_singleton.mp he]
        exact hdefect

/-- **An accepted dictionary is indexed by its entries.** -/
theorem indexed_of_ofEntries {entries : List (Entry α)} {d : Dictionary α}
    (h : ofEntries entries = .ok d) : Indexed entries d := by
  have hgeneral : ∀ (more before : List (Entry α)) (d₀ : Dictionary α), Indexed before d₀ →
      more.foldlM Dictionary.register d₀ = .ok d → Indexed (before ++ more) d := by
    intro more
    induction more with
    | nil =>
      intro before d₀ hbefore hfold
      cases hfold
      simpa using hbefore
    | cons entry more ih =>
      intro before d₀ hbefore hfold
      rw [List.foldlM_cons] at hfold
      cases hstep : d₀.register entry with
      | error e =>
        rw [hstep] at hfold
        cases hfold
      | ok d₁ =>
        rw [hstep] at hfold
        have := ih (before ++ [entry]) d₁ (hbefore.register hstep) hfold
        simpa using this
  simpa using hgeneral entries [] empty indexed_empty h

/-- Nothing but a defect of an entry keeps a list of entries from being a dictionary. -/
theorem exists_ofEntries {entries : List (Entry α)} (h : ∀ entry ∈ entries, entry.defect? = none) :
    ∃ d, ofEntries entries = .ok d := by
  unfold ofEntries
  generalize (empty : Dictionary α) = d₀
  induction entries generalizing d₀ with
  | nil => exact ⟨d₀, rfl⟩
  | cons entry more ih =>
    have hstep : d₀.register entry =
        .ok (((d₀.addTriggers entry).addClosing entry).addName entry) := by
      rw [register_eq, h entry (by simp)]
    rw [List.foldlM_cons, hstep]
    exact ih (fun e he => h e (List.mem_cons_of_mem entry he)) _

/-- For a given list it can be checked that it is one. -/
theorem exists_ofEntries_of_all {entries : List (Entry α)}
    (h : entries.all (fun entry => entry.defect?.isNone) = true) :
    ∃ d, ofEntries entries = .ok d := by
  apply exists_ofEntries
  intro entry hentry
  exact Option.isNone_iff_eq_none.mp (List.all_eq_true.mp h entry hentry)

end Dictionary

end Formula
