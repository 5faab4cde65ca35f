import Formula.Proofs.Dictionary.Register
import Formula.Proofs.Reader.Place

/-!
  **The matches at a place.**

  A candidate at a place is a trigger of an entry of the dictionary that stands there; the place
  after it is strictly behind.  Where the triggers that start with the next token are known, so are
  the candidates.
-/

namespace Formula

open Reader (Past)

variable {α : Type}

theorem Trigger.not_isSpace (trigger : Trigger) : ∀ t ∈ trigger.tokens, t.isSpace = false := by
  intro t ht
  rw [trigger.tokens_eq] at ht
  simpa using (List.mem_filter.mp ht).2

theorem Entry.mem_readingsAt {first : Token} {entry : Entry α} {reading : Reading α}
    (h : reading ∈ entry.readingsAt first) :
    reading.entry = entry ∧ reading.trigger ∈ entry.matchedTriggers ∧
      reading.trigger.tokens.head? = some first := by
  obtain ⟨trigger, htrigger, rfl⟩ := List.mem_map.mp h
  obtain ⟨hmem, hhead⟩ := List.mem_filter.mp htrigger
  exact ⟨rfl, hmem, by simpa using hhead⟩

/-- No trigger of the entry starts with the token, nor does the one that closes it. -/
structure Entry.Avoids (entry : Entry α) (t : Token) : Prop where
  triggers : ∀ trigger ∈ entry.matchedTriggers, trigger.tokens.head? ≠ some t
  close : ∀ close ∈ entry.close, close.tokens.head? ≠ some t

instance (entry : Entry α) (t : Token) : Decidable (entry.Avoids t) :=
  decidable_of_iff ((∀ trigger ∈ entry.matchedTriggers, trigger.tokens.head? ≠ some t) ∧
      ∀ close ∈ entry.close, close.tokens.head? ≠ some t)
    ⟨fun h => ⟨h.1, h.2⟩, fun h => ⟨h.triggers, h.close⟩⟩

theorem Entry.readingsAt_eq_nil {entry : Entry α} {first : Token}
    (h : ∀ trigger ∈ entry.matchedTriggers, trigger.tokens.head? ≠ some first) :
    entry.readingsAt first = [] := by
  rw [Entry.readingsAt, List.map_eq_nil_iff, List.filter_eq_nil_iff]
  intro trigger htrigger hhead
  exact h trigger htrigger (beq_iff_eq.mp hhead)

theorem Entry.Avoids.closesWith {entry : Entry α} {t : Token} (h : entry.Avoids t) :
    entry.closesWith t = false := by
  rw [← Bool.not_eq_true, Entry.closesWith, Bool.and_eq_true, Option.any_eq_true]
  rintro ⟨-, close, hclose, hhead⟩
  exact h.close close hclose (beq_iff_eq.mp hhead)

/-- The ways to read notations of the kinds that start with the given token. -/
def readingsOf (entries : List (Entry α)) (kinds : List Kind) (first : Token) :
    List (Reading α) :=
  (entries.flatMap (Entry.readingsAt first)).filter (·.entry.kind ∈ kinds)

theorem mem_readingsOf {entries : List (Entry α)} {kinds : List Kind} {first : Token}
    {reading : Reading α} :
    reading ∈ readingsOf entries kinds first ↔
      reading ∈ entries.flatMap (Entry.readingsAt first) ∧ reading.entry.kind ∈ kinds := by
  rw [readingsOf, List.mem_filter, decide_eq_true_iff]

namespace Dictionary

theorem Indexed.mem_readings {entries : List (Entry α)} {d : Dictionary α}
    (hd : Indexed entries d) {first : Token} {reading : Reading α}
    (h : reading ∈ d.readings first) :
    reading.entry ∈ entries ∧ reading.trigger ∈ reading.entry.matchedTriggers ∧
      reading.trigger.tokens.head? = some first := by
  rw [hd.readings_eq, List.mem_flatMap] at h
  obtain ⟨entry, hentry, hreading⟩ := h
  obtain ⟨rfl, htrigger, hhead⟩ := Entry.mem_readingsAt hreading
  exact ⟨hentry, htrigger, hhead⟩

theorem mem_candidates {d : Dictionary α} {rest : List Token} {kinds : List Kind}
    {found : TriggerMatch α} (h : found ∈ d.candidates rest kinds) :
    ∃ first more, rest = first :: more ∧ ∃ reading ∈ d.readings first,
      reading.entry.kind ∈ kinds ∧ reading.match? rest = some found := by
  cases rest with
  | nil => cases h
  | cons first more =>
    rw [candidates, List.mem_mergeSort, List.mem_filterMap] at h
    obtain ⟨reading, hreading, hfound⟩ := h
    by_cases hkind : reading.entry.kind ∈ kinds
    · rw [if_pos hkind] at hfound
      exact ⟨first, more, rfl, reading, hreading, hkind, hfound⟩
    · rw [if_neg hkind] at hfound
      cases hfound

/-- A candidate is a match of an entry of the dictionary, and it takes at least one token. -/
theorem Indexed.candidate {entries : List (Entry α)} {d : Dictionary α} (hd : Indexed entries d)
    {rest : List Token} {kinds : List Kind} {found : TriggerMatch α}
    (h : found ∈ d.candidates rest kinds) :
    found.entry ∈ entries ∧ found.entry.kind ∈ kinds ∧ Past rest found.after := by
  obtain ⟨first, more, rfl, reading, hreading, hkind, hmatch⟩ := mem_candidates h
  obtain ⟨hentry, -, hhead⟩ := hd.mem_readings hreading
  obtain ⟨after, hafter, rfl⟩ := Option.map_eq_some_iff.mp hmatch
  refine ⟨hentry, hkind, Reader.matchTokens_past ?_ hafter⟩
  intro hnil
  rw [hnil] at hhead
  cases hhead

theorem Indexed.environment_mem {entries : List (Entry α)} {d : Dictionary α}
    (hd : Indexed entries d) {text : String} {entry : Entry α}
    (h : d.environment? text = some entry) : entry ∈ entries := by
  rw [hd.environment_eq] at h
  exact List.mem_of_find?_eq_some h

/-! ### Places where the candidates are known -/

theorem candidates_of_no_readings {d : Dictionary α} {first : Token}
    (h : d.readings first = []) (more : List Token) (kinds : List Kind) :
    d.candidates (first :: more) kinds = [] := by
  simp [candidates, h]

theorem candidates_eq (d : Dictionary α) (first : Token) (more : List Token)
    (kinds : List Kind) :
    d.candidates (first :: more) kinds =
      ((d.readings first).filterMap fun reading =>
        if reading.entry.kind ∈ kinds then reading.match? (first :: more) else none).mergeSort
        fun a b => b.consumed ≤ a.consumed := rfl

/-- If one of the readings matches and no other does, it is the only candidate. -/
theorem candidates_eq_singleton {d : Dictionary α} {first : Token} {more : List Token}
    {kinds : List Kind} {found : TriggerMatch α}
    (h : ((d.readings first).filterMap fun reading =>
      if reading.entry.kind ∈ kinds then reading.match? (first :: more) else none) = [found]) :
    d.candidates (first :: more) kinds = [found] := by
  rw [candidates_eq, h, List.mergeSort_singleton]

end Dictionary

end Formula
