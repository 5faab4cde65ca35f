import Formula.Proofs.Dictionary.Candidates
import Mathlib.Data.List.Forall2

/-!
  **The lengths of matches.**

  The blanks inside a match count for its length, and the candidates at a place are sorted by their
  lengths.  Of two matches at one place the longer one is that with more tokens in its trigger.  So
  at two places where the same triggers match the candidates come in the same order, whatever blanks
  stand inside the matches.
-/

namespace Formula

open Reader

/-! ### Tokens that are taken -/

/-- The place behind so many tokens, blanks between them not counted. -/
def passed : Nat → List Token → List Token
  | 0, rest => rest
  | 1, rest => rest.drop 1
  | n + 2, rest => passed (n + 1) ((rest.drop 1).dropWhile Token.isSpace)

theorem matchTokens_eq_passed {pattern rest after : List Token}
    (h : matchTokens pattern rest = some after) : passed pattern.length rest = after := by
  fun_induction matchTokens pattern rest with
  | case1 rest => exact Option.some.inj h
  | case2 => cases h
  | case3 p rest => exact Option.some.inj h
  | case4 => cases h
  | case5 q ps p rest ih => exact ih h
  | case6 => cases h

/-- A match ends behind every place that takes fewer tokens. -/
theorem length_lt_passed {pattern rest after : List Token}
    (h : matchTokens pattern rest = some after) {n : Nat} (hn : n < pattern.length) :
    after.length < (passed n rest).length := by
  have hlength := (matchTokens_suffix h).2
  fun_induction matchTokens pattern rest generalizing n with
  | case1 rest => cases hn
  | case2 => cases h
  | case3 p rest =>
    cases h
    have hzero : n = 0 := by simpa using hn
    subst hzero
    simp [passed]
  | case4 => cases h
  | case5 q ps p rest ih =>
    have hafter := (matchTokens_suffix h).2
    have hblank := (List.dropWhile_suffix Token.isSpace (l := rest)).length_le
    have hcases : n = 0 ∨ n = 1 ∨ ∃ k, n = k + 2 := by
      rcases n with _ | _ | k <;> simp
    rcases hcases with rfl | rfl | ⟨n, rfl⟩
    · simp only [passed, List.length_cons] at hlength ⊢
      omega
    · simp only [passed, List.drop_one, List.tail_cons]
      simp only [List.length_cons] at hafter
      omega
    · have hless : n + 1 < (q :: ps).length := by
        simp only [List.length_cons] at hn ⊢
        omega
      exact ih h hless hafter
  | case6 => cases h

/-- A longer trigger takes more tokens. -/
theorem matchTokens_length_le_iff {p q rest a b : List Token} (ha : matchTokens p rest = some a)
    (hb : matchTokens q rest = some b) : a.length ≤ b.length ↔ q.length ≤ p.length := by
  have hpassed := matchTokens_eq_passed ha
  have hpassed' := matchTokens_eq_passed hb
  rcases Nat.lt_trichotomy p.length q.length with hlt | heq | hgt
  · have hshort := length_lt_passed hb hlt
    rw [hpassed] at hshort
    omega
  · rw [← hpassed, ← hpassed', heq]
    omega
  · have hshort := length_lt_passed ha hgt
    rw [hpassed'] at hshort
    omega

variable {α : Type}

/-- The two matches are of the same entry, and the places behind them are related. -/
def SameMatch (R : List Token → List Token → Prop) (found found' : TriggerMatch α) : Prop :=
  found.entry = found'.entry ∧ R found.after found'.after

/-- A reading of one of the kinds matches at both places or at none, and the places behind the two
    matches are related. -/
def Reading.Matches (R : List Token → List Token → Prop) (kinds : List Kind)
    (rest rest' : List Token) (reading : Reading α) : Prop :=
  reading.entry.kind ∈ kinds →
    Option.Rel R (matchTokens reading.trigger.tokens rest)
      (matchTokens reading.trigger.tokens rest')

/-! ### Readings and their two matches -/

/-- The matches of a reading at two places, if it matches at both. -/
def Reading.pair? (reading : Reading α) (kinds : List Kind) (rest rest' : List Token) :
    Option (TriggerMatch α × TriggerMatch α) :=
  if reading.entry.kind ∈ kinds then
    (reading.match? rest).bind fun found => (reading.match? rest').map (found, ·)
  else none

theorem Reading.of_pair? {reading : Reading α} {kinds : List Kind} {rest rest' : List Token}
    {x : TriggerMatch α × TriggerMatch α} (h : reading.pair? kinds rest rest' = some x) :
    reading.match? rest = some x.1 ∧ reading.match? rest' = some x.2 := by
  unfold Reading.pair? at h
  split at h
  · obtain ⟨found, hfound, hpair⟩ := Option.bind_eq_some_iff.mp h
    obtain ⟨found', hfound', rfl⟩ := Option.map_eq_some_iff.mp hpair
    exact ⟨hfound, hfound'⟩
  · cases h

variable {R : List Token → List Token → Prop} {kinds : List Kind} {rest rest' : List Token}

theorem Reading.match?_rel {reading : Reading α} (h : reading.Matches R kinds rest rest')
    (hkind : reading.entry.kind ∈ kinds) :
    Option.Rel (SameMatch R) (reading.match? rest) (reading.match? rest') := by
  have hmatch := h hkind
  unfold Reading.match?
  generalize matchTokens reading.trigger.tokens rest = after at hmatch
  generalize matchTokens reading.trigger.tokens rest' = after' at hmatch
  cases hmatch with
  | none => exact .none
  | some hafter => exact .some ⟨rfl, hafter⟩

/-- The pair holds the matches at both places. -/
theorem Reading.map_pair? {reading : Reading α} (h : reading.Matches R kinds rest rest') :
    (reading.pair? kinds rest rest').map Prod.fst =
        (if reading.entry.kind ∈ kinds then reading.match? rest else none) ∧
      (reading.pair? kinds rest rest').map Prod.snd =
        (if reading.entry.kind ∈ kinds then reading.match? rest' else none) := by
  unfold Reading.pair?
  split
  · rename_i hkind
    have hmatch := reading.match?_rel h hkind
    generalize reading.match? rest = found at hmatch
    generalize reading.match? rest' = found' at hmatch
    cases hmatch with
    | none => exact ⟨rfl, rfl⟩
    | some _ => exact ⟨rfl, rfl⟩
  · exact ⟨rfl, rfl⟩

theorem Reading.sameMatch_of_pair? {reading : Reading α} (h : reading.Matches R kinds rest rest')
    {x : TriggerMatch α × TriggerMatch α} (hx : reading.pair? kinds rest rest' = some x) :
    SameMatch R x.1 x.2 := by
  have hkind : reading.entry.kind ∈ kinds := by
    by_contra hkind
    rw [Reading.pair?, if_neg hkind] at hx
    cases hx
  obtain ⟨hfound, hfound'⟩ := Reading.of_pair? hx
  have hmatch := reading.match?_rel h hkind
  rw [hfound, hfound'] at hmatch
  cases hmatch with
  | some hsame => exact hsame

/-- The match with more tokens in its trigger is the longer one. -/
theorem Reading.consumed_le_iff {reading other : Reading α} {found found' : TriggerMatch α}
    (h : reading.match? rest = some found) (h' : other.match? rest = some found') :
    found'.consumed ≤ found.consumed ↔
      other.trigger.tokens.length ≤ reading.trigger.tokens.length := by
  obtain ⟨after, hafter, rfl⟩ := Option.map_eq_some_iff.mp h
  obtain ⟨after', hafter', rfl⟩ := Option.map_eq_some_iff.mp h'
  have hle := (matchTokens_suffix hafter).1.length_le
  have hle' := (matchTokens_suffix hafter').1.length_le
  rw [← matchTokens_length_le_iff hafter hafter']
  dsimp only
  omega

/-! ### Candidates -/

/-- Where the same triggers match the same entries are candidates, in the same order. -/
theorem Dictionary.candidates_rel (d : Dictionary α) {t : Token} {v v' : List Token}
    (h : ∀ reading ∈ d.readings t, reading.Matches R kinds (t :: v) (t :: v')) :
    List.Forall₂ (SameMatch R) (d.candidates (t :: v) kinds) (d.candidates (t :: v') kinds) := by
  let pairs := (d.readings t).filterMap fun reading => reading.pair? kinds (t :: v) (t :: v')
  have hpair : ∀ x ∈ pairs, ∃ reading ∈ d.readings t,
      reading.pair? kinds (t :: v) (t :: v') = some x := by
    intro x hx
    exact List.mem_filterMap.mp hx
  have hfst : d.candidates (t :: v) kinds =
      (pairs.mergeSort fun x y => y.1.consumed ≤ x.1.consumed).map Prod.fst := by
    rw [List.map_mergeSort (s := fun a b : TriggerMatch α => b.consumed ≤ a.consumed)
      fun _ _ _ _ => rfl, Dictionary.candidates_eq, List.map_filterMap,
      List.filterMap_congr fun reading hreading => (Reading.map_pair? (h reading hreading)).1]
  have hsnd : d.candidates (t :: v') kinds =
      (pairs.mergeSort fun x y => y.1.consumed ≤ x.1.consumed).map Prod.snd := by
    rw [List.map_mergeSort (s := fun a b : TriggerMatch α => b.consumed ≤ a.consumed),
      Dictionary.candidates_eq, List.map_filterMap,
      List.filterMap_congr fun reading hreading => (Reading.map_pair? (h reading hreading)).2]
    · -- both sides sort by the lengths of the triggers
      intro x hx y hy
      obtain ⟨reading, -, hreading⟩ := hpair x hx
      obtain ⟨other, -, hother⟩ := hpair y hy
      obtain ⟨hfound, hfound'⟩ := Reading.of_pair? hreading
      obtain ⟨kfound, kfound'⟩ := Reading.of_pair? hother
      rw [decide_eq_decide, Reading.consumed_le_iff hfound kfound,
        Reading.consumed_le_iff hfound' kfound']
  rw [hfst, hsnd, List.forall₂_map_left_iff, List.forall₂_map_right_iff, List.forall₂_same]
  intro x hx
  obtain ⟨reading, hmem, hreading⟩ := hpair x (List.mem_mergeSort.mp hx)
  exact Reading.sameMatch_of_pair? (h reading hmem) hreading

end Formula
