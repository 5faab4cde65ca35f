import Formula.Proofs.Dictionary.Extent
import Formula.Proofs.Dictionary.Insertion

/-!
  **The longest trigger first.**

  The dictionary looks a trigger up by its first token and sorts what matches by the tokens taken,
  blanks included.  A reader who tried every trigger of every entry in turn would find the same
  matches.  The blanks make no difference to their order: of two triggers that match at one place
  the one with more tokens ends later, and two that end at the same place have the same tokens.  So
  the matches come with the longest trigger first, those of one length in the order in which their
  triggers were registered, and more blanks between the tokens change nothing.
-/

namespace Formula

open Reader

/-! ### Matches of different tokens -/

/-- Two triggers that match up to the same place have the same tokens. -/
theorem eq_of_same_after {p q rest after : List Token} (hp : ∀ t ∈ p, t.isSpace = false)
    (hq : ∀ t ∈ q, t.isSpace = false) (h : matchTokens p rest = some after)
    (h' : matchTokens q rest = some after) : p = q := by
  obtain ⟨taken, hmatch, htaken⟩ := exists_taken hp h
  obtain ⟨taken', hmatch', htaken'⟩ := exists_taken hq h'
  rw [htaken] at htaken'
  rw [← hmatch.tokens_eq, ← hmatch'.tokens_eq, List.append_cancel_right htaken']

/-- The same tokens, blanks apart. -/
def SameTokens (s s' : List Token) : Prop := s.filter (! ·.isSpace) = s'.filter (! ·.isSpace)

/-- With other blanks behind the first token a trigger matches just as well, and ends at the same
    token. -/
theorem SameTokens.matchTokens {s s' : List Token} (h : SameTokens s s') (t : Token)
    (pattern : List Token) :
    Option.Rel SameTokens (matchTokens pattern (t :: s)) (matchTokens pattern (t :: s')) := by
  induction pattern generalizing t s s' with
  | nil =>
    refine .some ?_
    rw [SameTokens, List.filter_cons, List.filter_cons, h]
  | cons p ps ih =>
    cases ps with
    | nil =>
      rw [Formula.matchTokens, Formula.matchTokens]
      split
      · exact .some h
      · exact .none
    | cons q qs =>
      rw [Formula.matchTokens, Formula.matchTokens]
      split
      · rcases dropWhile_isSpace s with ⟨hdrop, hfilter⟩ | ⟨u, v, hdrop, hfilter⟩
        · rcases dropWhile_isSpace s' with ⟨hdrop', -⟩ | ⟨u', v', -, hfilter'⟩
          · rw [hdrop, hdrop']
            cases qs <;> exact .none
          · rw [SameTokens, hfilter, hfilter'] at h
            cases h
        · rcases dropWhile_isSpace s' with ⟨-, hfilter'⟩ | ⟨u', v', hdrop', hfilter'⟩
          · rw [SameTokens, hfilter, hfilter'] at h
            cases h
          · rw [SameTokens, hfilter, hfilter'] at h
            obtain ⟨rfl, hmore⟩ := List.cons.inj h
            rw [hdrop, hdrop']
            exact ih hmore u
      · exact .none

theorem SameTokens.isSome_matchTokens {s s' : List Token} (h : SameTokens s s') (t : Token)
    (pattern : List Token) :
    (Formula.matchTokens pattern (t :: s)).isSome =
      (Formula.matchTokens pattern (t :: s')).isSome := by
  have hmatch := h.matchTokens t pattern
  generalize Formula.matchTokens pattern (t :: s) = a,
    Formula.matchTokens pattern (t :: s') = b at hmatch
  cases hmatch <;> rfl

variable {α : Type}

/-! ### Trying every trigger -/

/-- Every way to read the entries, in the order in which their triggers were registered. -/
def allReadings (entries : List (Entry α)) : List (Reading α) :=
  entries.flatMap fun entry => entry.triggers.map fun trigger => ⟨entry, trigger⟩

/-- The readings of the kinds whose trigger matches at the position.  Environments have none. -/
def matchingReadings (entries : List (Entry α)) (kinds : List Kind) (tokens : List Token)
    (position : Nat) : List (Reading α) :=
  (allReadings entries).filter fun r =>
    r.entry.kind != .environment && decide (r.entry.kind ∈ kinds) &&
      (matchTokensAt tokens position r.trigger.tokens).isSome

/-- The readings with the longest trigger first, and those of one length in the given order. -/
structure LongestFirst (given order : List (Reading α)) : Prop where
  perm : order.Perm given
  longest_first : order.Pairwise fun r r' => r'.trigger.tokens.length ≤ r.trigger.tokens.length
  ties : ∀ n, (order.filter fun r => r.trigger.tokens.length = n) =
    given.filter fun r => r.trigger.tokens.length = n

/-- Does the first of the readings have at least as long a trigger? -/
def Reading.atLeastAsLong (r r' : Reading α) : Bool :=
  r'.trigger.tokens.length ≤ r.trigger.tokens.length

theorem Reading.atLeastAsLong_trans (a b c : Reading α) (hab : a.atLeastAsLong b = true)
    (hbc : b.atLeastAsLong c = true) : a.atLeastAsLong c = true := by
  simp only [Reading.atLeastAsLong, decide_eq_true_eq] at *
  omega

theorem Reading.atLeastAsLong_total (a b : Reading α) :
    (a.atLeastAsLong b || b.atLeastAsLong a) = true := by
  simp only [Reading.atLeastAsLong, Bool.or_eq_true, decide_eq_true_eq]
  omega

theorem longestFirst_mergeSort (given : List (Reading α)) :
    LongestFirst given (given.mergeSort Reading.atLeastAsLong) where
  perm := List.mergeSort_perm _ _
  longest_first :=
    (List.pairwise_mergeSort Reading.atLeastAsLong_trans Reading.atLeastAsLong_total given).imp
      fun h => of_decide_eq_true h
  ties := by
    intro n
    rw [filter_mergeSort Reading.atLeastAsLong_trans Reading.atLeastAsLong_total]
    apply List.mergeSort_of_pairwise
    rw [List.pairwise_iff_forall_sublist]
    intro a b hab
    have ha := List.of_mem_filter (hab.subset List.mem_cons_self)
    have hb := List.of_mem_filter (hab.subset (List.mem_cons_of_mem a List.mem_cons_self))
    simp only [decide_eq_true_eq] at ha hb
    simp [Reading.atLeastAsLong, ha, hb]

/-- The match of a reading, where it matches. -/
def Reading.found (rest : List Token) (r : Reading α) : TriggerMatch α :=
  (r.match? rest).getD ⟨r.entry, 0, rest⟩

theorem Reading.found_entry (rest : List Token) (r : Reading α) :
    (r.found rest).entry = r.entry := by
  rw [Reading.found, Reading.match?]
  cases matchTokens r.trigger.tokens rest <;> rfl

/-- The match says which entry matches and where the match ends. -/
structure TriggerMatch.IsMatchOf (tokens : List Token) (position : Nat) (r : Reading α)
    (found : TriggerMatch α) : Prop where
  entry_eq : found.entry = r.entry
  end_eq : matchTokensAt tokens position r.trigger.tokens = some (position + found.consumed)
  after_eq : found.after = tokens.drop (position + found.consumed)

/-- Two matches at one place take equally many tokens exactly if their triggers have the same
    tokens. -/
theorem TriggerMatch.IsMatchOf.consumed_eq_iff {tokens : List Token} {position : Nat}
    {r r' : Reading α} {found found' : TriggerMatch α} (h : found.IsMatchOf tokens position r)
    (h' : found'.IsMatchOf tokens position r') :
    found.consumed = found'.consumed ↔ r.trigger.tokens = r'.trigger.tokens := by
  constructor
  · intro hconsumed
    have hend := h.end_eq
    have hend' := h'.end_eq
    rw [← hconsumed] at hend'
    rw [matchTokensAt, Option.map_eq_some_iff] at hend hend'
    obtain ⟨after, hafter, hlength⟩ := hend
    obtain ⟨after', hafter', hlength'⟩ := hend'
    obtain ⟨hsuffix, -⟩ := matchTokens_suffix hafter
    obtain ⟨hsuffix', -⟩ := matchTokens_suffix hafter'
    have hle := hsuffix.length_le
    have hle' := hsuffix'.length_le
    have hsame : after = after' :=
      (List.suffix_of_suffix_length_le hsuffix hsuffix' (by omega)).eq_of_length (by omega)
    rw [← hsame] at hafter'
    exact eq_of_same_after (Trigger.not_isSpace _) (Trigger.not_isSpace _) hafter hafter'
  · intro htokens
    have hend := h.end_eq
    rw [htokens, h'.end_eq, Option.some.injEq] at hend
    omega

theorem isSome_matchTokensAt (tokens : List Token) (position : Nat) (pattern : List Token) :
    (matchTokensAt tokens position pattern).isSome =
      (matchTokens pattern (tokens.drop position)).isSome := by
  rw [matchTokensAt, Option.isSome_map]

theorem mem_matchingReadings {entries : List (Entry α)} {kinds : List Kind} {tokens : List Token}
    {position : Nat} {r : Reading α} :
    r ∈ matchingReadings entries kinds tokens position ↔
      r ∈ allReadings entries ∧ r.entry.kind ≠ .environment ∧ r.entry.kind ∈ kinds ∧
        ∃ after, matchTokens r.trigger.tokens (tokens.drop position) = some after := by
  rw [matchingReadings, List.mem_filter, Bool.and_eq_true, Bool.and_eq_true, isSome_matchTokensAt,
    Option.isSome_iff_exists, decide_eq_true_iff, bne_iff_ne, and_assoc]

theorem match?_of_mem {entries : List (Entry α)} {kinds : List Kind} {tokens : List Token}
    {position : Nat} {r : Reading α} (h : r ∈ matchingReadings entries kinds tokens position) :
    r.match? (tokens.drop position) = some (r.found (tokens.drop position)) := by
  obtain ⟨-, -, -, after, hafter⟩ := mem_matchingReadings.mp h
  rw [Reading.found, Reading.match?, hafter]
  rfl

theorem isMatchOf_found {entries : List (Entry α)} {kinds : List Kind} {tokens : List Token}
    {position : Nat} {r : Reading α} (h : r ∈ matchingReadings entries kinds tokens position) :
    (r.found (tokens.drop position)).IsMatchOf tokens position r := by
  obtain ⟨-, -, -, after, hafter⟩ := mem_matchingReadings.mp h
  have hfound : r.found (tokens.drop position) =
      ⟨r.entry, (tokens.drop position).length - after.length, after⟩ := by
    rw [Reading.found, Reading.match?, hafter]
    rfl
  rw [hfound]
  refine ⟨rfl, ?_, ?_⟩
  · rw [matchTokensAt, hafter]
    rfl
  · rw [← List.drop_drop]
    exact List.suffix_iff_eq_drop.mp (matchTokens_suffix hafter).1

namespace Dictionary

section

variable {entries : List (Entry α)} {d : Dictionary α}

/-- An accepted trigger has a first token. -/
theorem Indexed.tokens_ne_nil (hd : Indexed entries d) {r : Reading α}
    (hr : r ∈ allReadings entries) (hkind : r.entry.kind ≠ .environment) : r.trigger.tokens ≠ [] := by
  obtain ⟨entry, hentry, hreading⟩ := List.mem_flatMap.mp hr
  obtain ⟨trigger, htrigger, rfl⟩ := List.mem_map.mp hreading
  have hsound := hd.sound entry hentry
  intro hnil
  have hmatched : entry.matchedTriggers = entry.triggers := if_neg hkind
  have hempty : (entry.matchedTriggers.find? Trigger.isEmpty).isSome = true := by
    rw [List.find?_isSome]
    exact ⟨trigger, by rwa [hmatched], by rw [Trigger.isEmpty, hnil]; rfl⟩
  obtain ⟨first, hfirst⟩ := Option.isSome_iff_exists.mp hempty
  rw [Entry.defect?, hfirst] at hsound
  split at hsound
  · cases hsound
  · split at hsound <;> cases hsound

/-- The readings that the index has for the first token are those that may match there. -/
theorem Indexed.readings_filter (hd : Indexed entries d) (kinds : List Kind)
    {tokens : List Token} {position : Nat} {first : Token} {more : List Token}
    (hrest : tokens.drop position = first :: more) :
    ((d.readings first).filter fun r =>
        decide (r.entry.kind ∈ kinds) && (r.match? (first :: more)).isSome) =
      matchingReadings entries kinds tokens position := by
  rw [hd.readings_eq, matchingReadings, allReadings, List.filter_flatMap, List.filter_flatMap]
  apply List.flatMap_congr
  intro entry hentry
  rw [Entry.readingsAt, List.filter_map, List.filter_map]
  congr 1
  by_cases hkind : entry.kind = .environment
  · simp [Entry.matchedTriggers, hkind]
  · rw [Entry.matchedTriggers, if_neg hkind, List.filter_filter]
    apply List.filter_congr
    intro trigger htrigger
    have hne : trigger.tokens ≠ [] := hd.tokens_ne_nil (r := ⟨entry, trigger⟩)
      (List.mem_flatMap.mpr ⟨entry, hentry, List.mem_map_of_mem htrigger⟩) hkind
    -- a trigger that matches starts with the first token
    have hhead : (matchTokens trigger.tokens (first :: more)).isSome = true →
        trigger.tokens.head? = some first := by
      cases htokens : trigger.tokens with
      | nil => exact absurd htokens hne
      | cons t ts =>
        intro hsome
        have ht : first = t := by
          by_contra hnot
          cases ts <;> simp [matchTokens, hnot] at hsome
        rw [ht]
        rfl
    simp only [Function.comp_apply, Reading.match?, Option.isSome_map, isSome_matchTokensAt, hrest]
    cases hsome : (matchTokens trigger.tokens (first :: more)).isSome with
    | false => simp
    | true => simp [hhead hsome, hkind]

/-- The candidates are the matches of all readings that match, the longest trigger first. -/
theorem Indexed.candidates_eq_found (hd : Indexed entries d) (tokens : List Token) (position : Nat)
    (kinds : List Kind) :
    d.candidates (tokens.drop position) kinds =
      ((matchingReadings entries kinds tokens position).mergeSort Reading.atLeastAsLong).map
        (Reading.found (tokens.drop position)) := by
  have hsorted : ∀ r ∈ matchingReadings entries kinds tokens position,
      ∀ r' ∈ matchingReadings entries kinds tokens position,
        r.atLeastAsLong r' = decide ((r'.found (tokens.drop position)).consumed ≤
          (r.found (tokens.drop position)).consumed) := by
    intro r hr r' hr'
    rw [Reading.atLeastAsLong, decide_eq_decide]
    exact (Reading.consumed_le_iff (match?_of_mem hr) (match?_of_mem hr')).symm
  rw [List.map_mergeSort (s := fun a b : TriggerMatch α => b.consumed ≤ a.consumed) hsorted]
  cases hrest : tokens.drop position with
  | nil =>
    have hnone : matchingReadings entries kinds tokens position = [] := by
      rw [List.eq_nil_iff_forall_not_mem]
      intro r hr
      obtain ⟨hall, hkind, -, after, hafter⟩ := mem_matchingReadings.mp hr
      have hne := hd.tokens_ne_nil hall hkind
      rw [hrest] at hafter
      cases htokens : r.trigger.tokens with
      | nil => exact hne htokens
      | cons t ts =>
        rw [htokens] at hafter
        cases hafter
    rw [hnone, List.map_nil, List.mergeSort_nil]
    rfl
  | cons first more =>
    rw [Dictionary.candidates_eq, ← hd.readings_filter kinds hrest]
    congr 1
    rw [← List.filterMap_eq_map, List.filterMap_filter]
    apply List.filterMap_congr
    intro r _
    by_cases hkind : r.entry.kind ∈ kinds
    · cases hmatch : r.match? (first :: more) with
      | none => simp [hkind]
      | some found => simp [hkind, hmatch, Reading.found]
    · simp [hkind]

/-- With other blanks behind the token at the position the same readings match. -/
theorem matchingReadings_blanks (kinds : List Kind) {tokens tokens' : List Token} {position : Nat}
    (hfirst : tokens'.take (position + 1) = tokens.take (position + 1))
    (hmore : SameTokens (tokens'.drop (position + 1)) (tokens.drop (position + 1))) :
    matchingReadings entries kinds tokens' position =
      matchingReadings entries kinds tokens position := by
  have hsame : ∀ pattern, (matchTokens pattern (tokens'.drop position)).isSome =
      (matchTokens pattern (tokens.drop position)).isSome := by
    intro pattern
    have hhead : tokens'[position]? = tokens[position]? := by
      rw [← List.getElem?_take_of_lt (Nat.lt_succ_self position), hfirst,
        List.getElem?_take_of_lt (Nat.lt_succ_self position)]
    cases htoken : tokens[position]? with
    | none =>
      rw [htoken] at hhead
      rw [List.drop_eq_nil_of_le (List.getElem?_eq_none_iff.mp htoken),
        List.drop_eq_nil_of_le (List.getElem?_eq_none_iff.mp hhead)]
    | some t =>
      rw [htoken] at hhead
      obtain ⟨hlt, ht⟩ := List.getElem?_eq_some_iff.mp htoken
      obtain ⟨hlt', ht'⟩ := List.getElem?_eq_some_iff.mp hhead
      rw [List.drop_eq_getElem_cons hlt, List.drop_eq_getElem_cons hlt', ht, ht']
      exact hmore.isSome_matchTokens t pattern
  rw [matchingReadings, matchingReadings]
  apply List.filter_congr
  intro r _
  rw [isSome_matchTokensAt, isSome_matchTokensAt, hsame]

/-- **The index finds what a scan finds.**  The candidates of an accepted dictionary at any place
    are the matches of the readings whose trigger matches there, each once: the longest trigger
    first, those of one length in the order in which they were registered.  Two of them take equally
    many tokens exactly if their triggers have the same tokens, and with other blanks behind the
    first token the same entries come in the same order. -/
theorem candidates_eq_scan (hd : ofEntries entries = .ok d) (tokens : List Token) (position : Nat)
    (kinds : List Kind) :
    (∃ order, LongestFirst (matchingReadings entries kinds tokens position) order ∧
      List.Forall₂ (TriggerMatch.IsMatchOf tokens position) order
        (d.candidates (tokens.drop position) kinds)) ∧
    (∀ (r r' : Reading α) (found found' : TriggerMatch α), found.IsMatchOf tokens position r →
      found'.IsMatchOf tokens position r' →
        (found.consumed = found'.consumed ↔ r.trigger.tokens = r'.trigger.tokens)) ∧
    ∀ tokens' : List Token, tokens'.take (position + 1) = tokens.take (position + 1) →
      SameTokens (tokens'.drop (position + 1)) (tokens.drop (position + 1)) →
        (d.candidates (tokens'.drop position) kinds).map (·.entry) =
          (d.candidates (tokens.drop position) kinds).map (·.entry) := by
  have hindexed := indexed_of_ofEntries hd
  refine ⟨⟨_, longestFirst_mergeSort _, ?_⟩, ?_, ?_⟩
  · rw [hindexed.candidates_eq_found tokens position kinds, List.forall₂_map_right_iff,
      List.forall₂_same]
    intro r hr
    exact isMatchOf_found ((List.mergeSort_perm _ _).subset hr)
  · intro r r' found found' h h'
    exact h.consumed_eq_iff h'
  · intro tokens' hfirst hmore
    rw [hindexed.candidates_eq_found, hindexed.candidates_eq_found,
      matchingReadings_blanks kinds hfirst hmore, List.map_map, List.map_map]
    apply List.map_congr_left
    intro r _
    exact (Reading.found_entry _ r).trans (Reading.found_entry _ r).symm

/-- For `<` and `<=`, and for `a< =b` in place of `a<=b`. -/
theorem candidates_eq_scan_less :
    ∃ d : Dictionary Unit,
      ofEntries [.infixOp "Less" "<" 245, .infixOp "LessEqual" "<=" 241] = .ok d ∧
      ∃ order, LongestFirst (matchingReadings
          [.infixOp "Less" "<" 245, .infixOp "LessEqual" "<=" 241] [.infixOp]
            (tokenize "a<=b") 1) order ∧
        List.Forall₂ (TriggerMatch.IsMatchOf (tokenize "a<=b") 1) order
          (d.candidates (tokenize "<=b") [.infixOp]) ∧
        (d.candidates (tokenize "< =b") [.infixOp]).map (·.entry) =
          (d.candidates (tokenize "<=b") [.infixOp]).map (·.entry) := by
  have hsound : ([.infixOp "Less" "<" 245, .infixOp "LessEqual" "<=" 241] : List (Entry Unit)).all
      (fun entry => entry.defect?.isNone) = true := by decide +kernel
  obtain ⟨d, hd⟩ := exists_ofEntries_of_all hsound
  obtain ⟨⟨order, horder, hmatches⟩, -, hblanks⟩ :=
    candidates_eq_scan hd (tokenize "a<=b") 1 [.infixOp]
  have hspaced : SameTokens ((tokenize "a< =b").drop 2) ((tokenize "a<=b").drop 2) := by
    unfold SameTokens
    decide +kernel
  have hsame := hblanks (tokenize "a< =b") (by decide +kernel) hspaced
  have hrest : (tokenize "a<=b").drop 1 = tokenize "<=b" := by decide +kernel
  have hrest' : (tokenize "a< =b").drop 1 = tokenize "< =b" := by decide +kernel
  rw [hrest] at hmatches hsame
  rw [hrest'] at hsame
  exact ⟨d, hd, order, horder, hmatches, hsame⟩

end

end Dictionary

end Formula
