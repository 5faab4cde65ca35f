import Formula.Proofs.Dictionary.Lengths

/-!
  **How far a match reaches.**

  A pattern matches where its tokens stand one behind the other with nothing but blanks between
  them.  So what a match takes is the pattern itself, blanks apart, and it begins and ends with a
  token of the pattern.  Conversely tokens of this kind are taken as a whole, whatever stands behind
  them: a blank in front of the next token is passed, and behind the last one there is none to pass.
  This leaves one place where the match can end.
-/

namespace Formula

open Reader

/-! ### What a match takes -/

/-- The tokens are those of the pattern, with blanks at most between two of them. -/
structure IsMatch (pattern taken : List Token) : Prop where
  begins : taken.head? = pattern.head?
  tokens_eq : taken.filter (! ·.isSpace) = pattern
  flush : ∀ t ∈ taken.getLast?, t.isSpace = false

/-- What stands behind the blanks is the first token that is none. -/
theorem dropWhile_isSpace (s : List Token) :
    (s.dropWhile Token.isSpace = [] ∧ s.filter (! ·.isSpace) = []) ∨
      ∃ t v, s.dropWhile Token.isSpace = t :: v ∧
        s.filter (! ·.isSpace) = t :: v.filter (! ·.isSpace) := by
  induction s with
  | nil => exact Or.inl ⟨rfl, rfl⟩
  | cons t s ih =>
    by_cases ht : t.isSpace = true
    · rw [List.dropWhile_cons_of_pos ht, List.filter_cons_of_neg (by simp [ht])]
      exact ih
    · rw [List.dropWhile_cons_of_neg ht, List.filter_cons_of_pos (by simp [ht])]
      exact Or.inr ⟨t, s, rfl, rfl⟩

theorem filter_blanks {blanks : List Token} (h : ∀ t ∈ blanks, t.isSpace = true) :
    blanks.filter (! ·.isSpace) = [] := by
  rw [List.filter_eq_nil_iff]
  intro t ht
  simp [h t ht]

theorem takeWhile_blanks (s : List Token) : ∀ t ∈ s.takeWhile Token.isSpace, t.isSpace = true :=
  List.all_eq_true.mp List.all_takeWhile

theorem getLast?_behind (p : Token) (s : List Token) {taken : List Token} (h : taken ≠ []) :
    (p :: (s ++ taken)).getLast? = taken.getLast? := by
  rw [← List.cons_append, List.getLast?_append_of_ne_nil _ h]

namespace IsMatch

variable {p q : Token} {ps taken blanks pattern : List Token}

theorem nil : IsMatch [] [] := ⟨rfl, rfl, by simp⟩

theorem single (hp : p.isSpace = false) : IsMatch [p] [p] := ⟨rfl, by simp [hp], by simp [hp]⟩

theorem ne_nil (h : IsMatch (p :: ps) taken) : taken ≠ [] := by
  rintro rfl
  cases h.begins

/-- One more token in front, and blanks behind it. -/
theorem cons (hp : p.isSpace = false) (hblanks : ∀ t ∈ blanks, t.isSpace = true)
    (h : IsMatch (q :: ps) taken) : IsMatch (p :: q :: ps) (p :: (blanks ++ taken)) where
  begins := rfl
  tokens_eq := by
    rw [List.filter_cons_of_pos (by simp [hp]), List.filter_append, filter_blanks hblanks,
      List.nil_append, h.tokens_eq]
  flush := by
    rw [getLast?_behind p blanks h.ne_nil]
    exact h.flush

theorem not_isSpace (h : IsMatch pattern taken) : ∀ t ∈ pattern, t.isSpace = false := by
  intro t ht
  rw [← h.tokens_eq, List.mem_filter] at ht
  simpa using ht.2

theorem eq_nil (h : IsMatch [] taken) : taken = [] := List.head?_eq_none_iff.mp h.begins

theorem exists_cons (h : IsMatch (p :: ps) taken) :
    ∃ s, taken = p :: s ∧ s.filter (! ·.isSpace) = ps := by
  obtain ⟨s, rfl⟩ := List.head?_eq_some_iff.mp h.begins
  have hp := h.not_isSpace p List.mem_cons_self
  have htokens := h.tokens_eq
  rw [List.filter_cons_of_pos (by simp [hp])] at htokens
  exact ⟨s, rfl, (List.cons.inj htokens).2⟩

/-- Behind its only token a match takes no blanks. -/
theorem eq_single (h : IsMatch [p] taken) : taken = [p] := by
  obtain ⟨s, rfl, hfilter⟩ := h.exists_cons
  rcases List.eq_nil_or_concat s with rfl | ⟨s, t, rfl⟩
  · rfl
  · rw [List.concat_eq_append] at h hfilter
    have hlast := getLast?_behind p s (List.cons_ne_nil t [])
    have ht : t.isSpace = false := h.flush t hlast
    have hblank := List.filter_eq_nil_iff.mp hfilter t (by simp)
    rw [ht] at hblank
    exact absurd rfl hblank

/-- Between its first two tokens a match takes blanks alone. -/
theorem exists_more (h : IsMatch (p :: q :: ps) taken) :
    ∃ blanks more, taken = p :: (blanks ++ more) ∧ (∀ t ∈ blanks, t.isSpace = true) ∧
      IsMatch (q :: ps) more := by
  obtain ⟨s, rfl, hfilter⟩ := h.exists_cons
  rcases dropWhile_isSpace s with ⟨-, hnone⟩ | ⟨t, v, hdrop, hsome⟩
  · rw [hnone] at hfilter
    cases hfilter
  rw [hsome] at hfilter
  obtain ⟨rfl, hrest⟩ := List.cons.inj hfilter
  have hs : s = s.takeWhile Token.isSpace ++ t :: v := by
    rw [← hdrop, List.takeWhile_append_dropWhile]
  have ht : t.isSpace = false := h.not_isSpace t (by simp)
  refine ⟨s.takeWhile Token.isSpace, t :: v, by rw [← hs], takeWhile_blanks s, rfl, ?_, ?_⟩
  · rw [List.filter_cons_of_pos (by simp [ht]), hrest]
  · rw [← getLast?_behind p (s.takeWhile Token.isSpace) (List.cons_ne_nil t v), ← hs]
    exact h.flush

/-- Tokens of this kind are taken as a whole, whatever stands behind them. -/
theorem matchTokens_append (h : IsMatch pattern taken) (after : List Token) :
    matchTokens pattern (taken ++ after) = some after := by
  induction pattern generalizing taken with
  | nil => rw [h.eq_nil, List.nil_append, matchTokens]
  | cons p ps ih =>
    cases ps with
    | nil =>
      rw [h.eq_single, List.singleton_append, matchTokens, if_pos rfl]
    | cons q ps =>
      obtain ⟨blanks, more, rfl, hblanks, hmore⟩ := h.exists_more
      obtain ⟨s, rfl, -⟩ := hmore.exists_cons
      have hq : ¬ q.isSpace = true := by simp [hmore.not_isSpace q List.mem_cons_self]
      have hdrop : (blanks ++ (q :: s ++ after)).dropWhile Token.isSpace = q :: s ++ after := by
        rw [List.dropWhile_append_of_pos hblanks, List.cons_append, List.dropWhile_cons_of_neg hq]
      rw [List.cons_append, List.append_assoc, matchTokens, if_pos rfl, hdrop]
      exact ih hmore

end IsMatch

/-- The tokens of a match are those of the trigger, blanks apart. -/
theorem exists_taken {pattern rest after : List Token} (hpattern : ∀ t ∈ pattern, t.isSpace = false)
    (h : matchTokens pattern rest = some after) :
    ∃ taken, IsMatch pattern taken ∧ rest = taken ++ after := by
  fun_induction matchTokens pattern rest with
  | case1 rest =>
    cases h
    exact ⟨[], .nil, rfl⟩
  | case2 => cases h
  | case3 p rest =>
    cases h
    exact ⟨[p], .single (hpattern p List.mem_cons_self), rfl⟩
  | case4 => cases h
  | case5 q ps p rest ih =>
    obtain ⟨taken, hmatch, htaken⟩ := ih (fun t ht => hpattern t (List.mem_cons_of_mem _ ht)) h
    refine ⟨p :: (rest.takeWhile Token.isSpace ++ taken),
      hmatch.cons (hpattern p List.mem_cons_self) (takeWhile_blanks rest), ?_⟩
    rw [List.cons_append, List.append_assoc, ← htaken, List.takeWhile_append_dropWhile]
  | case6 => cases h

/-! ### Where it begins and ends -/

/-- The pattern stands from the one position up to the other: it begins and ends with a token of the
    pattern, and between the two there are only blanks besides. -/
structure Spans (pattern tokens : List Token) (position stop : Nat) : Prop where
  in_range : position < tokens.length
  begins : tokens[position]? = pattern.head?
  tokens_eq : (tokens.extract position stop).filter (! ·.isSpace) = pattern
  flush : ∃ t, tokens[stop - 1]? = some t ∧ t.isSpace = false

section

variable {pattern tokens : List Token} {position stop : Nat}

theorem matchTokensAt_eq_some_iff (hpattern : ∀ t ∈ pattern, t.isSpace = false) :
    matchTokensAt tokens position pattern = some stop ↔
      ∃ taken, IsMatch pattern taken ∧ taken <+: tokens.drop position ∧
        stop = position + taken.length := by
  rw [matchTokensAt, Option.map_eq_some_iff]
  constructor
  · rintro ⟨after, hafter, rfl⟩
    obtain ⟨taken, hmatch, htaken⟩ := exists_taken hpattern hafter
    refine ⟨taken, hmatch, ⟨after, htaken.symm⟩, ?_⟩
    rw [htaken, List.length_append, Nat.add_sub_cancel]
  · rintro ⟨taken, hmatch, ⟨after, hafter⟩, rfl⟩
    refine ⟨after, ?_, ?_⟩
    · rw [← hafter]
      exact hmatch.matchTokens_append after
    · rw [← hafter, List.length_append, Nat.add_sub_cancel]

theorem spans_of_isMatch (hpattern : pattern ≠ []) {taken : List Token}
    (hmatch : IsMatch pattern taken) (htaken : taken <+: tokens.drop position) :
    Spans pattern tokens position (position + taken.length) := by
  obtain ⟨p, ps, rfl⟩ := List.exists_cons_of_ne_nil hpattern
  have hne := hmatch.ne_nil
  have hpos : 0 < taken.length := List.length_pos_iff.mpr hne
  have hextract : tokens.extract position (position + taken.length) = taken := by
    rw [List.extract_eq_take_drop, Nat.add_sub_cancel_left]
    exact (List.prefix_iff_eq_take.mp htaken).symm
  have hlength := htaken.length_le
  rw [List.length_drop] at hlength
  refine ⟨by omega, ?_, ?_, ?_⟩
  · obtain ⟨after, hafter⟩ := htaken
    rw [← hmatch.begins, ← List.head?_drop, ← hafter, List.head?_append_of_ne_nil taken hne]
  · rw [hextract, hmatch.tokens_eq]
  · refine ⟨taken.getLast hne, ?_, hmatch.flush _ (List.getLast?_eq_some_getLast hne)⟩
    have hat : position + taken.length - 1 = position + (taken.length - 1) := by omega
    rw [hat, ← List.getElem?_drop, ← List.getLast?_eq_some_getLast hne, List.getLast?_eq_getElem?]
    obtain ⟨after, hafter⟩ := htaken
    rw [← hafter, List.getElem?_append_left (by omega)]

theorem Spans.exists_isMatch (hpattern : pattern ≠ []) (h : Spans pattern tokens position stop) :
    ∃ taken, IsMatch pattern taken ∧ taken <+: tokens.drop position ∧
      stop = position + taken.length := by
  obtain ⟨hrange, hbegins, htokens, t, hlast, ht⟩ := h
  have hlt : position < stop := by
    by_contra hle
    rw [List.extract_eq_take_drop, Nat.sub_eq_zero_of_le (by omega), List.take_zero] at htokens
    exact hpattern htokens.symm
  have hstop : stop - 1 < tokens.length := (List.getElem?_eq_some_iff.mp hlast).1
  have hlength : (tokens.extract position stop).length = stop - position := by
    rw [List.extract_eq_take_drop, List.length_take, List.length_drop]
    omega
  refine ⟨tokens.extract position stop, ⟨?_, htokens, ?_⟩, List.take_prefix _ _, by omega⟩
  · rw [List.extract_eq_take_drop, List.head?_take, if_neg (by omega), List.head?_drop, hbegins]
  · intro u hu
    rw [List.getLast?_eq_getElem?, hlength, List.extract_eq_take_drop,
      List.getElem?_take_of_lt (by omega), List.getElem?_drop] at hu
    have hat : position + (stop - position - 1) = stop - 1 := by omega
    rw [hat, hlast] at hu
    cases hu
    exact ht

theorem matchTokensAt_eq_some_iff_spans (hne : pattern ≠ [])
    (hpattern : ∀ t ∈ pattern, t.isSpace = false) :
    matchTokensAt tokens position pattern = some stop ↔ Spans pattern tokens position stop := by
  rw [matchTokensAt_eq_some_iff hpattern]
  constructor
  · rintro ⟨taken, hmatch, htaken, rfl⟩
    exact spans_of_isMatch hne hmatch htaken
  · exact fun h => h.exists_isMatch hne

/-- Of two matches at one place the one with the longer pattern ends later. -/
theorem stop_lt_iff {p q : List Token} {stop' : Nat}
    (h : matchTokensAt tokens position p = some stop)
    (h' : matchTokensAt tokens position q = some stop') : stop < stop' ↔ p.length < q.length := by
  obtain ⟨after, hafter, rfl⟩ := Option.map_eq_some_iff.mp h
  obtain ⟨after', hafter', rfl⟩ := Option.map_eq_some_iff.mp h'
  have hle := (matchTokens_suffix hafter).1.length_le
  have hle' := (matchTokens_suffix hafter').1.length_le
  have hlengths := matchTokens_length_le_iff hafter hafter'
  omega

/-- **A pattern matches exactly where its tokens stand, and a longer one takes more.** -/
theorem matchTokensAt_exact (hne : pattern ≠ []) (hpattern : ∀ t ∈ pattern, t.isSpace = false)
    (tokens : List Token) (position : Nat) :
    (∀ stop, matchTokensAt tokens position pattern = some stop ↔
        Spans pattern tokens position stop) ∧
      (∀ stop stop', Spans pattern tokens position stop → Spans pattern tokens position stop' →
        stop = stop') ∧
      ∀ other stop stop', matchTokensAt tokens position pattern = some stop →
        matchTokensAt tokens position other = some stop' →
        compare stop stop' = compare pattern.length other.length := by
  refine ⟨fun stop => matchTokensAt_eq_some_iff_spans hne hpattern, ?_, ?_⟩
  · intro stop stop' h h'
    rw [← matchTokensAt_eq_some_iff_spans hne hpattern] at h h'
    rw [h] at h'
    exact Option.some.inj h'
  · intro other stop stop' h h'
    rw [Nat.compare_eq_ite_lt, Nat.compare_eq_ite_lt]
    simp only [stop_lt_iff h h', stop_lt_iff h' h]

end

theorem matchTokensAt_exact_left :
    let pattern : List Token := [.command "\\left", .char '(']
    let tokens : List Token :=
      [.char 'a', .command "\\left", .space, .char '(', .space, .char 'x']
    pattern ≠ [] ∧ (∀ t ∈ pattern, t.isSpace = false) ∧
      matchTokensAt tokens 1 pattern = some 4 ∧
      (∀ stop, Spans pattern tokens 1 stop → stop = 4) ∧
      matchTokensAt tokens 1 [.command "\\left"] = some 2 ∧ compare 4 2 = compare 2 1 := by
  intro pattern tokens
  have hne : pattern ≠ [] := by decide
  have hpattern : ∀ t ∈ pattern, t.isSpace = false := by decide
  obtain ⟨hspans, hunique, hlonger⟩ := matchTokensAt_exact hne hpattern tokens 1
  have hstands : Spans pattern tokens 1 4 := ⟨by decide, rfl, by decide, .char '(', rfl, rfl⟩
  have hmatch := (hspans 4).mpr hstands
  have hshort : matchTokensAt tokens 1 [.command "\\left"] = some 2 := by decide
  exact ⟨hne, hpattern, hmatch, fun stop h => hunique stop 4 h hstands, hshort,
    hlonger _ 4 2 hmatch hshort⟩

end Formula
