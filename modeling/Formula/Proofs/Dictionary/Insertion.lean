import Formula.Proofs.Dictionary.Candidates

/-!
  **One more operator in a dictionary.**

  An operator is put anywhere into the list of entries, and each of its triggers has the tokens of
  a trigger that some other operator has already.  Then the two dictionaries differ in nothing but
  that the new operator is one more candidate at some places, where there was one before.  `Gains`
  says what of this a reader can see.
-/

namespace Formula

open Reader (Past)

/-! ### Sorting and leaving out -/

/-- Where all in front come strictly before an element and all behind do not, the place of the
    element is determined. -/
theorem split_unique {β : Type} {q : β → Bool} {l₁ l₂ m₁ m₂ : List β}
    (h : l₁ ++ l₂ = m₁ ++ m₂) (hl₁ : ∀ b ∈ l₁, q b = true) (hl₂ : ∀ b ∈ l₂, ¬ q b = true)
    (hm₁ : ∀ b ∈ m₁, q b = true) (hm₂ : ∀ b ∈ m₂, ¬ q b = true) : l₁ = m₁ ∧ l₂ = m₂ := by
  have hfront : l₁ = m₁ := by
    have hfilter := congrArg (List.filter q) h
    rwa [List.filter_append, List.filter_append, List.filter_eq_self.mpr hl₁,
      List.filter_eq_nil_iff.mpr hl₂, List.filter_eq_self.mpr hm₁,
      List.filter_eq_nil_iff.mpr hm₂, List.append_nil, List.append_nil] at hfilter
  subst hfront
  exact ⟨rfl, List.append_cancel_left h⟩

/-- Sorting keeps the order of equal elements, so leaving some out can be done before it. -/
theorem filter_mergeSort {β : Type} {le : β → β → Bool}
    (trans : ∀ a b c, le a b = true → le b c = true → le a c = true)
    (total : ∀ a b, (le a b || le b a) = true) (p : β → Bool) (l : List β) :
    (l.mergeSort le).filter p = (l.filter p).mergeSort le := by
  induction l with
  | nil => rw [List.mergeSort_nil, List.filter_nil, List.mergeSort_nil]
  | cons a l ih =>
    obtain ⟨l₁, l₂, hcons, hl, hl₁⟩ := List.mergeSort_cons trans total a l
    have hsorted := List.pairwise_mergeSort trans total (a :: l)
    rw [hcons] at hsorted
    have hl₂ := (List.pairwise_cons.mp (List.pairwise_append.mp hsorted).2.1).1
    rw [hl, List.filter_append] at ih
    by_cases hp : p a = true
    · -- in both lists `a` stands behind what comes strictly before it
      obtain ⟨m₁, m₂, hmcons, hm, hm₁⟩ := List.mergeSort_cons trans total a (l.filter p)
      have hmsorted := List.pairwise_mergeSort trans total (a :: l.filter p)
      rw [hmcons] at hmsorted
      have hm₂ := (List.pairwise_cons.mp (List.pairwise_append.mp hmsorted).2.1).1
      rw [hm] at ih
      obtain ⟨hfront, hback⟩ := split_unique (q := fun b => ! le a b) ih
        (fun b hb => hl₁ b (List.mem_filter.mp hb).1)
        (fun b hb => by simp [hl₂ b (List.mem_filter.mp hb).1]) hm₁
        (fun b hb => by simp [hm₂ b hb])
      rw [List.filter_cons_of_pos hp, hcons, hmcons, List.filter_append,
        List.filter_cons_of_pos hp, hfront, hback]
    · rw [List.filter_cons_of_neg hp, hcons, List.filter_append, List.filter_cons_of_neg hp, ih]

/-! ### The matches of an entry -/

variable {α : Type}

/-- The matches of one entry at a place, if it is of the kinds. -/
def Entry.matchesAt (kinds : List Kind) (rest : List Token) (entry : Entry α) :
    List (TriggerMatch α) :=
  match rest with
  | [] => []
  | first :: _ =>
    (entry.readingsAt first).filterMap fun reading =>
      if reading.entry.kind ∈ kinds then reading.match? rest else none

theorem Entry.mem_matchesAt {kinds : List Kind} {rest : List Token} {entry : Entry α}
    {found : TriggerMatch α} :
    found ∈ entry.matchesAt kinds rest ↔
      entry.kind ∈ kinds ∧ found.entry = entry ∧
        found.consumed = rest.length - found.after.length ∧
        ∃ t ∈ entry.matchedTriggers, t.tokens.head? = rest.head? ∧ rest ≠ [] ∧
          matchTokens t.tokens rest = some found.after := by
  cases rest with
  | nil => simp [Entry.matchesAt]
  | cons first more =>
    rw [Entry.matchesAt, List.mem_filterMap]
    constructor
    · rintro ⟨reading, hreading, hfound⟩
      obtain ⟨rfl, htrigger, hhead⟩ := Entry.mem_readingsAt hreading
      by_cases hkind : reading.entry.kind ∈ kinds
      · rw [if_pos hkind] at hfound
        obtain ⟨after, hafter, rfl⟩ := Option.map_eq_some_iff.mp hfound
        exact ⟨hkind, rfl, rfl, _, htrigger, hhead, List.cons_ne_nil _ _, hafter⟩
      · rw [if_neg hkind] at hfound
        cases hfound
    · rintro ⟨hkind, rfl, hconsumed, t, htrigger, hhead, -, hafter⟩
      refine ⟨⟨found.entry, t⟩, ?_, ?_⟩
      · exact List.mem_map.mpr ⟨t, List.mem_filter.mpr ⟨htrigger, by simpa using hhead⟩, rfl⟩
      · rw [if_pos hkind, Reading.match?, hafter, Option.map_some, ← hconsumed]

/-- The order in which matches are tried. -/
def TriggerMatch.before (a b : TriggerMatch α) : Bool := b.consumed ≤ a.consumed

theorem TriggerMatch.before_trans (a b c : TriggerMatch α) (hab : a.before b = true)
    (hbc : b.before c = true) : a.before c = true := by
  simp only [TriggerMatch.before, decide_eq_true_eq] at *
  omega

theorem TriggerMatch.before_total (a b : TriggerMatch α) :
    (a.before b || b.before a) = true := by
  simp only [TriggerMatch.before, Bool.or_eq_true, decide_eq_true_eq]
  omega

namespace Dictionary

theorem Indexed.candidates_eq {entries : List (Entry α)} {d : Dictionary α}
    (hd : Indexed entries d) (rest : List Token) (kinds : List Kind) :
    d.candidates rest kinds =
      (entries.flatMap (Entry.matchesAt kinds rest)).mergeSort TriggerMatch.before := by
  cases rest with
  | nil =>
    have hnone : entries.flatMap (Entry.matchesAt kinds []) = [] := by
      simp [Entry.matchesAt]
    rw [hnone, List.mergeSort_nil]
    rfl
  | cons first more =>
    rw [Dictionary.candidates_eq, hd.readings_eq, List.filterMap_flatMap]
    rfl

theorem Indexed.mem_candidates_iff {entries : List (Entry α)} {d : Dictionary α}
    (hd : Indexed entries d) {rest : List Token} {kinds : List Kind} {found : TriggerMatch α} :
    found ∈ d.candidates rest kinds ↔ ∃ o ∈ entries, found ∈ o.matchesAt kinds rest := by
  rw [hd.candidates_eq, List.mem_mergeSort, List.mem_flatMap]

/-- A match is told by its length. -/
theorem Indexed.after_eq {entries : List (Entry α)} {d : Dictionary α} (hd : Indexed entries d)
    {rest : List Token} {kinds : List Kind} {found : TriggerMatch α}
    (h : found ∈ d.candidates rest kinds) : found.after = rest.drop found.consumed := by
  obtain ⟨o, -, hmatch⟩ := hd.mem_candidates_iff.mp h
  obtain ⟨-, -, hconsumed, -⟩ := Entry.mem_matchesAt.mp hmatch
  rw [hconsumed]
  exact List.suffix_iff_eq_drop.mp (hd.candidate h).2.2.1

theorem Indexed.candidates_sorted {entries : List (Entry α)} {d : Dictionary α}
    (hd : Indexed entries d) (rest : List Token) (kinds : List Kind) :
    (d.candidates rest kinds).Pairwise fun a b => b.consumed ≤ a.consumed := by
  rw [hd.candidates_eq]
  exact (List.pairwise_mergeSort TriggerMatch.before_trans TriggerMatch.before_total _).imp
    fun h => of_decide_eq_true h

/-- The first of the matches that pass a test is one of the longest of them. -/
theorem Indexed.consumed_le_first {entries : List (Entry α)} {d : Dictionary α}
    (hd : Indexed entries d) {rest : List Token} {kinds : List Kind} {test : TriggerMatch α → Bool}
    {found : TriggerMatch α} {others : List (TriggerMatch α)}
    (h : (d.candidates rest kinds).filter test = found :: others) :
    ∀ other ∈ d.candidates rest kinds, test other = true → other.consumed ≤ found.consumed := by
  intro other hother htest
  have hsorted := (hd.candidates_sorted rest kinds).filter test
  have hmem := List.mem_filter.mpr ⟨hother, htest⟩
  rw [h] at hsorted hmem
  rcases List.mem_cons.mp hmem with rfl | hlater
  · exact Nat.le_refl _
  · exact (List.pairwise_cons.mp hsorted).1 other hlater

/-- The first match is one of the longest. -/
theorem Indexed.longest_first {entries : List (Entry α)} {d : Dictionary α}
    (hd : Indexed entries d) {rest : List Token} {kinds : List Kind} {found : TriggerMatch α}
    (h : d.lookup? rest kinds = some found) :
    found ∈ d.candidates rest kinds ∧
      ∀ other ∈ d.candidates rest kinds, other.consumed ≤ found.consumed := by
  obtain ⟨others, hcandidates⟩ := List.head?_eq_some_iff.mp h
  have hfilter : (d.candidates rest kinds).filter (fun _ => true) = found :: others := by
    rw [List.filter_eq_self.mpr fun _ _ => rfl, hcandidates]
  refine ⟨?_, fun other hother => hd.consumed_le_first hfilter other hother rfl⟩
  rw [hcandidates]
  exact List.mem_cons_self

end Dictionary

/-! ### An operator at the triggers of others -/

def Entry.IsOperator (entry : Entry α) : Prop := entry.kind = .infixOp ∨ entry.kind = .postfixOp

/-- Each trigger of the operator has the tokens of a trigger of some operator among the entries. -/
structure Entry.Doubles (new : Entry α) (entries : List (Entry α)) : Prop where
  operator : new.IsOperator
  triggers : ∀ t ∈ new.triggers, ∃ o ∈ entries, o.IsOperator ∧
    ∃ t' ∈ o.triggers, t'.tokens = t.tokens

theorem Entry.IsOperator.matchedTriggers_eq {entry : Entry α} (h : entry.IsOperator) :
    entry.matchedTriggers = entry.triggers := by
  rw [Entry.matchedTriggers, if_neg]
  rcases h with h | h <;> rw [h] <;> decide

theorem Entry.IsOperator.mem {entry : Entry α} (h : entry.IsOperator) {kinds : List Kind}
    (hinfixed : .infixOp ∈ kinds) (hpostfixed : .postfixOp ∈ kinds) : entry.kind ∈ kinds := by
  rcases h with h | h <;> rwa [h]

/-- The second dictionary has what the first has, and the operator among the candidates. -/
structure Dictionary.Gains (new : Entry α) (d d' : Dictionary α) : Prop where
  isCloser_eq : ∀ t, d'.isCloser t = d.isCloser t
  environment_eq : ∀ text, d'.environment? text = d.environment? text
  /-- Where no operators are looked for there is no difference. -/
  candidates_eq : ∀ rest kinds, .infixOp ∉ kinds → .postfixOp ∉ kinds →
    d'.candidates rest kinds = d.candidates rest kinds
  /-- Without the operator the candidates are the same and in the same order. -/
  filter_eq : ∀ keep : Entry α → Bool, keep new = false → ∀ rest kinds,
    (d'.candidates rest kinds).filter (fun found => keep found.entry) =
      (d.candidates rest kinds).filter (fun found => keep found.entry)
  /-- The longest match ends at the same place. -/
  lookup_eq : ∀ rest kinds, .infixOp ∈ kinds → .postfixOp ∈ kinds →
    (d'.lookup? rest kinds).map TriggerMatch.after = (d.lookup? rest kinds).map TriggerMatch.after

namespace Dictionary

section

variable {before after : List (Entry α)} {new : Entry α} {d d' : Dictionary α}
  (hd : Indexed (before ++ after) d) (hd' : Indexed (before ++ new :: after) d')

include hd hd'

/-- Where the operator doubles others every match has one of the others of the same length. -/
theorem exists_double (hnew : new.Doubles (before ++ after)) {rest : List Token}
    {kinds : List Kind} (hinfixed : .infixOp ∈ kinds) (hpostfixed : .postfixOp ∈ kinds)
    {found : TriggerMatch α} (hfound : found ∈ d'.candidates rest kinds) :
    ∃ other ∈ d.candidates rest kinds, other.consumed = found.consumed := by
  obtain ⟨o, ho, hmatch⟩ := hd'.mem_candidates_iff.mp hfound
  have hcases : o ∈ before ++ after ∨ o = new := by
    rcases List.mem_append.mp ho with ho | ho
    · exact Or.inl (List.mem_append_left _ ho)
    · rcases List.mem_cons.mp ho with rfl | ho
      · exact Or.inr rfl
      · exact Or.inl (List.mem_append_right _ ho)
  rcases hcases with ho | rfl
  · exact ⟨found, hd.mem_candidates_iff.mpr ⟨o, ho, hmatch⟩, rfl⟩
  · obtain ⟨-, -, hconsumed, t, ht, hhead, hrest, hafter⟩ := Entry.mem_matchesAt.mp hmatch
    rw [hnew.operator.matchedTriggers_eq] at ht
    obtain ⟨twin, htwin, hoperator, t', ht', hsame⟩ := hnew.triggers t ht
    refine ⟨⟨twin, found.consumed, found.after⟩, ?_, rfl⟩
    refine hd.mem_candidates_iff.mpr ⟨twin, htwin, Entry.mem_matchesAt.mpr ?_⟩
    refine ⟨hoperator.mem hinfixed hpostfixed, rfl, hconsumed, t', ?_, ?_, hrest, ?_⟩
    · rw [hoperator.matchedTriggers_eq]
      exact ht'
    · rw [hsame, hhead]
    · rw [hsame, hafter]

theorem mem_candidates_of_mem {rest : List Token} {kinds : List Kind} {found : TriggerMatch α}
    (hfound : found ∈ d.candidates rest kinds) : found ∈ d'.candidates rest kinds := by
  obtain ⟨o, ho, hmatch⟩ := hd.mem_candidates_iff.mp hfound
  refine hd'.mem_candidates_iff.mpr ⟨o, ?_, hmatch⟩
  rcases List.mem_append.mp ho with ho | ho
  · exact List.mem_append_left _ ho
  · exact List.mem_append_right _ (List.mem_cons_of_mem _ ho)

theorem lookup_after (hnew : new.Doubles (before ++ after)) {rest : List Token}
    {kinds : List Kind} (hinfixed : .infixOp ∈ kinds) (hpostfixed : .postfixOp ∈ kinds) :
    (d'.lookup? rest kinds).map TriggerMatch.after =
      (d.lookup? rest kinds).map TriggerMatch.after := by
  cases hfound' : d'.lookup? rest kinds with
  | none =>
    have hnone : d.candidates rest kinds = [] := by
      rw [List.eq_nil_iff_forall_not_mem]
      intro found hfound
      have hmem := mem_candidates_of_mem hd hd' hfound
      rw [List.head?_eq_none_iff.mp hfound'] at hmem
      cases hmem
    rw [lookup?, hnone]
    rfl
  | some found' =>
    obtain ⟨hmem', hlongest'⟩ := hd'.longest_first hfound'
    obtain ⟨other, hother, hconsumed⟩ := exists_double hd hd' hnew hinfixed hpostfixed hmem'
    cases hfound : d.lookup? rest kinds with
    | none =>
      rw [List.head?_eq_none_iff.mp hfound] at hother
      cases hother
    | some found =>
      obtain ⟨hmem, hlongest⟩ := hd.longest_first hfound
      -- the operator has found nothing longer than what the others find
      have hsame : found'.consumed = found.consumed := by
        have hle := hlongest other hother
        have hge := hlongest' found (mem_candidates_of_mem hd hd' hmem)
        omega
      rw [Option.map_some, Option.map_some, hd'.after_eq hmem', hd.after_eq hmem, hsame]

/-- The dictionary with one operator more gains nothing else. -/
theorem gains (hnew : new.Doubles (before ++ after)) : Gains new d d' where
  isCloser_eq := by
    intro t
    have hcloses : new.closesWith t = false := by
      rcases hnew.operator with h | h <;> simp [Entry.closesWith, h]
    rw [hd.closer_eq, hd'.closer_eq, List.any_append, List.any_append, List.any_cons, hcloses,
      Bool.false_or]
  environment_eq := by
    intro text
    have hblock : new.isEnvironment text = false := by
      rcases hnew.operator with h | h <;> simp [Entry.isEnvironment, h]
    rw [hd.environment_eq, hd'.environment_eq, List.find?_append, List.find?_append,
      List.find?_cons_of_neg (by simp [hblock])]
  candidates_eq := by
    intro rest kinds hinfixed hpostfixed
    have hnone : new.matchesAt kinds rest = [] := by
      rw [List.eq_nil_iff_forall_not_mem]
      intro found hfound
      have hkind := (Entry.mem_matchesAt.mp hfound).1
      rcases hnew.operator with h | h
      · rw [h] at hkind
        exact hinfixed hkind
      · rw [h] at hkind
        exact hpostfixed hkind
    rw [hd.candidates_eq, hd'.candidates_eq, List.flatMap_append, List.flatMap_append,
      List.flatMap_cons, hnone, List.nil_append]
  filter_eq := by
    intro keep hkeep rest kinds
    have hnone : (new.matchesAt kinds rest).filter (fun found => keep found.entry) = [] := by
      rw [List.filter_eq_nil_iff]
      intro found hfound
      rw [(Entry.mem_matchesAt.mp hfound).2.1, hkeep]
      exact Bool.false_ne_true
    rw [hd.candidates_eq, hd'.candidates_eq,
      filter_mergeSort TriggerMatch.before_trans TriggerMatch.before_total,
      filter_mergeSort TriggerMatch.before_trans TriggerMatch.before_total, List.flatMap_append,
      List.flatMap_append, List.flatMap_cons, List.filter_append, List.filter_append,
      List.filter_append, hnone, List.nil_append]
  lookup_eq _ _ hinfixed hpostfixed := lookup_after hd hd' hnew hinfixed hpostfixed

end

end Dictionary

end Formula
