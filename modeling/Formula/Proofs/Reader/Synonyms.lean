import Formula.Proofs.Reader.Lockstep
import Formula.Proofs.Reader.NormalForm
import Formula.Proofs.Reader.Padding

/-!
  **Another name for a notation.**

  A notation may have a synonym: an entry of the same kind that binds in the same way and produces
  the same head, with a command of its own.  A formula is read alike with either of the two commands
  at any of the places where they stand, but for the sources that its errors show.

  The two commands stand for themselves: no other trigger has one of them, so where one of them is
  the next token its own notation is the only one that may match, and where one of them stands
  inside something it is skipped or reported like any other command.
-/

namespace Formula

/-- Does the token occur in a trigger of the entry, or in what closes it? -/
def Entry.mentions (t : Token) (entry : Entry Unit) : Bool :=
  entry.triggers.any (fun trigger => trigger.tokens.contains t) ||
    entry.close.any (fun close => close.tokens.contains t)

/-- The commands that mean something to the reader itself. -/
def reservedCommands : List String :=
  ["\\begin", "\\end", "\\left", "\\right", "\\\\"] ++ Reader.spacingCommands

/-- The command is the only trigger of the entry, and no other entry has it in its triggers. -/
structure Entry.Solely (entries : List (Entry Unit)) (entry : Entry Unit) (name : String) :
    Prop where
  mem : entry ∈ entries
  triggers : entry.triggers.map Trigger.tokens = [[.command name]]
  alone : entries.countP (Entry.mentions (.command name)) = 1
  free : name ∉ reservedCommands

/-- The entry `other` is a synonym of `main`: it is read in the same way and produces the same
    head. -/
structure Entry.Synonym (main other : Entry Unit) : Prop where
  rule : main.parse = .byKind
  target : ∃ head, main.name = some head ∧ other.parse = .synonym head
  kind : main.kind ∈ [.infixOp, .prefixOp, .postfixOp, .symbol]
  same : other.kind = main.kind
  precedence : other.precedence = main.precedence
  associativity : other.associativity = main.associativity

namespace Entry

variable {entries : List (Entry Unit)} {entry main other : Entry Unit} {name : String}

theorem mentions_of_trigger {t : Token} {trigger : Trigger} (h : trigger ∈ entry.triggers)
    (ht : t ∈ trigger.tokens) : entry.mentions t = true := by
  rw [mentions, Bool.or_eq_true]
  exact Or.inl (List.any_eq_true.mpr ⟨trigger, h, List.contains_iff_mem.mpr ht⟩)

theorem mentions_of_close {t : Token} {close : Trigger} (h : entry.close = some close)
    (ht : t ∈ close.tokens) : entry.mentions t = true := by
  rw [mentions, Bool.or_eq_true]
  exact Or.inr (by rw [h]; exact List.contains_iff_mem.mpr ht)

theorem mem_triggers_of_matched {trigger : Trigger} (h : trigger ∈ entry.matchedTriggers) :
    trigger ∈ entry.triggers := by
  unfold matchedTriggers at h
  split at h
  · cases h
  · exact h

namespace Solely

theorem mentions (h : Solely entries entry name) : entry.mentions (.command name) = true := by
  obtain ⟨trigger, htrigger, htokens⟩ : ∃ trigger ∈ entry.triggers,
      trigger.tokens = [.command name] := by
    have hmem : [Token.command name] ∈ entry.triggers.map Trigger.tokens := by
      rw [h.triggers]
      exact List.mem_singleton_self _
    exact List.mem_map.mp hmem
  exact mentions_of_trigger htrigger (by simp [htokens])

/-- The entry is the only one with the command. -/
theorem filter_eq (h : Solely entries entry name) :
    entries.filter (Entry.mentions (.command name)) = [entry] := by
  have hlength : (entries.filter (Entry.mentions (.command name))).length = 1 := by
    rw [← List.countP_eq_length_filter, h.alone]
  obtain ⟨only, honly⟩ := List.length_eq_one_iff.mp hlength
  have hmem : entry ∈ entries.filter (Entry.mentions (.command name)) :=
    List.mem_filter.mpr ⟨h.mem, h.mentions⟩
  rw [honly, List.mem_singleton] at hmem
  rw [honly, hmem]

theorem eq_of_mentions (h : Solely entries entry name) {entry' : Entry Unit}
    (hentry : entry' ∈ entries) (hmentions : entry'.mentions (.command name) = true) :
    entry' = entry := by
  have hmem : entry' ∈ entries.filter (Entry.mentions (.command name)) :=
    List.mem_filter.mpr ⟨hentry, hmentions⟩
  rwa [h.filter_eq, List.mem_singleton] at hmem

end Solely

end Entry

open Reader

/-! ### The notation of a command -/

namespace Entry.Solely

variable {entries : List (Entry Unit)} {entry : Entry Unit} {name : String} {d : Dictionary Unit}

/-- Only the entries that mention a token are read where it stands. -/
theorem flatMap_readingsAt (entries : List (Entry Unit)) (t : Token) :
    entries.flatMap (Entry.readingsAt t) =
      (entries.filter (Entry.mentions t)).flatMap (Entry.readingsAt t) := by
  induction entries with
  | nil => rfl
  | cons entry entries ih =>
    by_cases hmentions : entry.mentions t = true
    · rw [List.filter_cons_of_pos hmentions, List.flatMap_cons, List.flatMap_cons, ih]
    · have hnone : entry.readingsAt t = [] := by
        apply Entry.readingsAt_eq_nil
        intro trigger htrigger hhead
        exact hmentions (mentions_of_trigger (mem_triggers_of_matched htrigger)
          (List.mem_of_head? hhead))
      rw [List.filter_cons_of_neg hmentions, List.flatMap_cons, hnone, ih, List.nil_append]

theorem readings (h : Solely entries entry name) (hd : Dictionary.Indexed entries d)
    (hkind : entry.kind ≠ .environment) :
    ∃ trigger, trigger.tokens = [.command name] ∧
      d.readings (.command name) = [⟨entry, trigger⟩] := by
  obtain ⟨trigger, htrigger⟩ : ∃ trigger, entry.triggers = [trigger] := by
    rw [← List.length_eq_one_iff, ← List.length_map (f := Trigger.tokens), h.triggers]
    rfl
  have htokens : trigger.tokens = [.command name] := by
    have htriggers := h.triggers
    rw [htrigger] at htriggers
    exact (List.cons.inj htriggers).1
  refine ⟨trigger, htokens, ?_⟩
  rw [hd.readings_eq, flatMap_readingsAt, h.filter_eq, List.flatMap_singleton, readingsAt,
    matchedTriggers, if_neg hkind, htrigger]
  simp [htokens]

/-- Where the command stands the notation is the only candidate. -/
theorem candidates (h : Solely entries entry name) (hd : Dictionary.Indexed entries d)
    (hkind : entry.kind ≠ .environment) (v : List Token) (kinds : List Kind) :
    d.candidates (.command name :: v) kinds =
      if entry.kind ∈ kinds then [⟨entry, 1, v⟩] else [] := by
  obtain ⟨trigger, htokens, hreadings⟩ := h.readings hd hkind
  have hmatch : Reading.match? ⟨entry, trigger⟩ (.command name :: v) = some ⟨entry, 1, v⟩ := by
    rw [Reading.match?, htokens]
    simp [matchTokens]
  rw [Dictionary.candidates_eq, hreadings]
  by_cases hmem : entry.kind ∈ kinds
  · simp [hmem, hmatch]
  · simp [hmem]

theorem isCloser (h : Solely entries entry name) (hd : Dictionary.Indexed entries d)
    (hkind : entry.kind ≠ .matchfix) : d.isCloser (.command name) = false := by
  rw [hd.closer_eq, List.any_eq_false]
  intro entry' hentry' hcloses
  rw [closesWith, Bool.and_eq_true, Option.any_eq_true] at hcloses
  obtain ⟨hmatchfix, close, hclose, hhead⟩ := hcloses
  have hmentions : entry'.mentions (.command name) = true :=
    mentions_of_close hclose (List.mem_of_head? (beq_iff_eq.mp hhead))
  obtain rfl := h.eq_of_mentions hentry' hmentions
  exact hkind (beq_iff_eq.mp hmatchfix)

end Entry.Solely

namespace Reader

/-! ### One command for another -/

/-- The command `own` in the place of the command `other`. -/
def rename (own other : String) (t : Token) : Token :=
  if t = .command other then .command own else t

variable {own other : String} {t : Token} {s : List Token}

theorem rename_other : rename own other (.command other) = .command own := if_pos rfl

theorem rename_of_ne (h : t ≠ .command other) : rename own other t = t := if_neg h

/-- What does not tell the two commands apart sees no difference. -/
theorem rename_test {β : Type} (own other : String) (test : Token → β)
    (h : test (.command own) = test (.command other)) (t : Token) :
    test (rename own other t) = test t := by
  by_cases ht : t = .command other
  · rw [ht, rename_other, h]
  · rw [rename_of_ne ht]

theorem dropWhile_rename (own other : String) (test : Token → Bool)
    (h : test (.command own) = test (.command other)) (s : List Token) :
    (s.map (rename own other)).dropWhile test = (s.dropWhile test).map (rename own other) := by
  have hsame : test ∘ rename own other = test := funext (rename_test own other test h)
  rw [List.dropWhile_map, hsame]

/-- The count ends at the same closing token if the two commands are neither opening ones nor
    closing ones. -/
theorem skipPaired_rename {opens closes : Token → Bool} {finish : List Token → List Token}
    (hopens : ∀ t, opens (rename own other t) = opens t)
    (hcloses : ∀ t, closes (rename own other t) = closes t)
    (hfinish : ∀ s, finish (s.map (rename own other)) = (finish s).map (rename own other))
    (depth : Nat) (s : List Token) :
    skipPaired opens closes finish depth (s.map (rename own other)) =
      (skipPaired opens closes finish depth s).map (rename own other) := by
  induction s generalizing depth with
  | nil => rfl
  | cons t s ih =>
    rw [List.map_cons, skipPaired, skipPaired, hopens, hcloses]
    split
    · exact ih (depth + 1)
    · split
      · split
        · exact hfinish s
        · exact ih (depth - 1)
      · exact ih depth

/-- A pattern without the two commands stands in both or in neither. -/
theorem matchTokens_rename {p : List Token} (hown : Token.command own ∉ p)
    (hother : Token.command other ∉ p) (s : List Token) :
    matchTokens p (s.map (rename own other)) =
      (matchTokens p s).map (List.map (rename own other)) := by
  induction p generalizing s with
  | nil => rfl
  | cons q ps ih =>
    cases s with
    | nil => cases ps <;> rfl
    | cons t s =>
      have hq : rename own other t = q ↔ t = q := by
        by_cases ht : t = .command other
        · subst ht
          rw [rename_other]
          constructor
          · rintro rfl
            exact absurd List.mem_cons_self hown
          · rintro rfl
            exact absurd List.mem_cons_self hother
        · rw [rename_of_ne ht]
      rw [List.map_cons]
      cases ps with
      | nil =>
        rw [matchTokens, matchTokens]
        simp only [hq]
        split <;> rfl
      | cons r ps =>
        rw [matchTokens, matchTokens,
          dropWhile_rename own other Token.isSpace rfl]
        simp only [hq]
        split
        · exact ih (fun h => hown (List.mem_cons_of_mem _ h))
            (fun h => hother (List.mem_cons_of_mem _ h)) _
        · rfl

/-- The two commands mean nothing to the reader itself. -/
structure Free (own other : String) : Prop where
  own : own ∉ reservedCommands
  other : other ∉ reservedCommands

namespace Free

theorem isCommand_eq (h : Free own other) {name : String} (hname : name ∈ reservedCommands)
    (t : Token) : (rename own other t).isCommand name = t.isCommand name := by
  apply rename_test
  have hne : ∀ {reserved : String}, reserved ∉ reservedCommands →
      Token.isCommand name (.command reserved) = false := by
    intro reserved hreserved
    rw [← Bool.not_eq_true, isCommand_iff]
    rintro ⟨⟩
    exact hreserved hname
  rw [hne h.own, hne h.other]

theorem isSpacing_own (h : Free own other) :
    isSpacing (.command own) = isSpacing (.command other) := by
  have hne : ∀ {reserved : String}, reserved ∉ reservedCommands →
      isSpacing (.command reserved) = false := by
    intro reserved hreserved
    rw [← Bool.not_eq_true]
    intro hspacing
    exact hreserved (List.mem_append_right _ (List.contains_iff_mem.mp hspacing))
  rw [hne h.own, hne h.other]

theorem skipSpace (h : Free own other) (s : List Token) :
    skipSpace (s.map (rename own other)) = (skipSpace s).map (rename own other) :=
  dropWhile_rename own other isSpacing h.isSpacing_own s

theorem skipDelimiter (h : Free own other) (s : List Token) :
    skipDelimiter (s.map (rename own other)) = (skipDelimiter s).map (rename own other) := by
  rw [Reader.skipDelimiter, Reader.skipDelimiter, h.skipSpace, List.map_drop]

theorem skipLeft (h : Free own other) (depth : Nat) (s : List Token) :
    skipLeft depth (s.map (rename own other)) = (skipLeft depth s).map (rename own other) := by
  rw [skipLeft_eq, skipLeft_eq]
  exact skipPaired_rename (h.isCommand_eq (by decide)) (h.isCommand_eq (by decide))
    h.skipDelimiter depth s

end Free

/-! ### The correspondence -/

/-- The same formula with `own` in the place of `other`, without blocks. -/
def renamed (own other : String) : Correspondence where
  Like := Tree.Alike
  Aligned _ _ s s' :=
    s' = s.map (rename own other) ∧
      ∀ t ∈ s, t.isCommand "\\begin" = false ∧ t.isCommand "\\end" = false
  Admits p := Token.command own ∉ p ∧ Token.command other ∉ p
  Seen t t' := t' = t.map (rename own other)

/-- Two notations with a command each, and one of them is a synonym of the other. -/
structure Synonyms (entries : List (Entry Unit)) (main second : Entry Unit) (own other : String) :
    Prop where
  synonym : main.Synonym second
  first : main.Solely entries own
  further : second.Solely entries other

variable {engine : Engine Unit} {main second : Entry Unit}

theorem Synonyms.free {entries : List (Entry Unit)} (h : Synonyms entries main second own other) :
    Free own other := ⟨h.first.free, h.further.free⟩

theorem renamed_suffix {depth bound : Nat} {s s' rest rest' : List Token}
    (h : (renamed own other).Aligned depth bound s s') (hsuffix : rest <:+ s)
    (hrest' : rest' = rest.map (rename own other)) (inner : Nat) :
    (renamed own other).Aligned depth inner rest rest' :=
  ⟨hrest', fun t ht => h.2 t (hsuffix.subset ht)⟩

theorem twin_of_synonym (h : main.Synonym second) : Entry.Twin second main := by
  obtain ⟨head, hname, htarget⟩ := h.target
  refine ⟨Or.inr ⟨?_, ?_⟩, h.same.symm, ?_, h.precedence.symm, h.associativity.symm, ?_⟩
  · rw [Entry.isCustom, htarget]
  · rw [Entry.isCustom, h.rule]
  · rw [Entry.head?, Entry.head?, h.rule, htarget, hname]
  · intro hkind
    have hmain := h.kind
    rw [← h.same, hkind] at hmain
    exact absurd hmain (by decide)

/-- Where the command stands, its notation says how it is read. -/
theorem claimed_of_solely {entries : List (Entry Unit)} {entry : Entry Unit} {name : String}
    (hd : Dictionary.Indexed entries engine.dictionary) (hsolely : entry.Solely entries name)
    (hkind : entry.kind ∈ [.infixOp, .prefixOp, .postfixOp, .symbol])
    (hrule : entry.isCustom = false) (hhead : entry.head?.isSome = true) (v : List Token) :
    Claimed engine (.command name :: v) := by
  have henvironment : entry.kind ≠ .environment := by
    intro heq
    rw [heq] at hkind
    exact absurd hkind (by decide)
  have hcandidates := hsolely.candidates hd henvironment v
  by_cases hoperator : entry.kind ∈ [Kind.infixOp, Kind.postfixOp]
  · left
    rw [atOperator, Dictionary.lookup?, hcandidates, if_pos hoperator]
    rfl
  · right
    have hstart : entry.kind = .symbol ∨ entry.kind = .prefixOp := by
      cases hk : entry.kind <;> simp [hk] at hkind hoperator ⊢
    refine ⟨⟨entry, 1, v⟩, [], ?_, hrule, hhead, hstart⟩
    rw [hcandidates, if_pos]
    rcases hstart with hk | hk <;> rw [hk] <;> decide

namespace Synonyms

variable {entries : List (Entry Unit)} (h : Synonyms entries main second own other)
  (hd : Dictionary.Indexed entries engine.dictionary)

include h

theorem kinds : main.kind ≠ .environment ∧ main.kind ≠ .matchfix := by
  have hkind := h.synonym.kind
  constructor <;> intro heq <;> rw [heq] at hkind <;> exact absurd hkind (by decide)

theorem kinds_second : second.kind ≠ .environment ∧ second.kind ≠ .matchfix := by
  rw [h.synonym.same]
  exact h.kinds

include hd

/-- Neither command closes anything. -/
theorem isCloser_eq (t : Token) :
    engine.dictionary.isCloser (rename own other t) = engine.dictionary.isCloser t := by
  apply rename_test
  rw [h.first.isCloser hd h.kinds.2, h.further.isCloser hd h.kinds_second.2]

/-- The two commands are claimed, and any other token is the same in both formulas. -/
theorem start (t : Token) (v v' : List Token) :
    SameStart engine t (rename own other t) v v' := by
  by_cases ht : t = .command other
  · subst ht
    rw [rename_other]
    obtain ⟨head, hname, htarget⟩ := h.synonym.target
    have hplain : ∀ {name : String}, name ∉ reservedCommands →
        engine.dictionary.isCloser (.command name) = false → Plain engine (.command name) := by
      intro name hfree hcloser
      refine ⟨⟨name, rfl, ?_⟩, hcloser⟩
      intro hmem
      apply hfree
      simp only [List.mem_cons, List.not_mem_nil, or_false] at hmem
      rcases hmem with rfl | rfl | rfl | rfl <;> decide
    refine Or.inr ⟨⟨hplain h.further.free (h.further.isCloser hd h.kinds_second.2), ?_⟩,
      hplain h.first.free (h.first.isCloser hd h.kinds.2), ?_⟩
    · apply claimed_of_solely hd h.further (h.synonym.same ▸ h.synonym.kind)
      · rw [Entry.isCustom, htarget]
      · rw [Entry.head?, htarget]
        rfl
    · apply claimed_of_solely hd h.first h.synonym.kind
      · rw [Entry.isCustom, h.synonym.rule]
      · rw [Entry.head?, h.synonym.rule, hname]
        rfl
  · exact Or.inl (rename_of_ne ht)

/-- No other trigger has one of the two commands in it. -/
theorem avoids {t : Token} (hown : t ≠ .command own) (hother : t ≠ .command other)
    {reading : Reading Unit} (hreading : reading ∈ engine.dictionary.readings t) :
    (renamed own other).Admits reading.trigger.tokens := by
  obtain ⟨hentry, htrigger, hhead⟩ := hd.mem_readings hreading
  have hsole : ∀ {entry : Entry Unit} {name : String}, entry.Solely entries name →
      t ≠ .command name → Token.command name ∉ reading.trigger.tokens := by
    intro entry name hsolely hne hmem
    have heq := hsolely.eq_of_mentions hentry
      (Entry.mentions_of_trigger (Entry.mem_triggers_of_matched htrigger) hmem)
    have htokens : reading.trigger.tokens = [.command name] := by
      have hmem : reading.trigger.tokens ∈ entry.triggers.map Trigger.tokens :=
        List.mem_map_of_mem (heq ▸ Entry.mem_triggers_of_matched htrigger)
      rw [hsolely.triggers] at hmem
      exact List.mem_singleton.mp hmem
    rw [htokens] at hhead
    cases hhead
    exact hne rfl
  exact ⟨hsole h.first hown, hsole h.further hother⟩

omit hd in
/-- No other notation is closed by one of the two commands. -/
theorem admits_close {entry : Entry Unit} (hentry : entry ∈ entries)
    (hkind : entry.kind = .matchfix) :
    (renamed own other).Admits ((entry.close.map Trigger.tokens).getD []) := by
  cases hclose : entry.close with
  | none => exact ⟨List.not_mem_nil, List.not_mem_nil⟩
  | some close =>
    constructor <;> intro hmem
    · obtain rfl := h.first.eq_of_mentions hentry (Entry.mentions_of_close hclose hmem)
      exact h.kinds.2 hkind
    · obtain rfl := h.further.eq_of_mentions hentry (Entry.mentions_of_close hclose hmem)
      exact h.kinds_second.2 hkind

/-- The same notations are candidates, one of the two in the place of the other. -/
theorem candidates {t : Token} {v : List Token} (kinds : List Kind) {depth : Nat}
    (hv : (renamed own other).Aligned depth 0 (t :: v) ((t :: v).map (rename own other))) :
    List.Forall₂ ((renamed own other).SameMatch depth)
      (engine.dictionary.candidates (t :: v) kinds)
      (engine.dictionary.candidates ((t :: v).map (rename own other)) kinds) := by
  have hafter : (renamed own other).Aligned depth 0 v (v.map (rename own other)) :=
    renamed_suffix hv (List.suffix_cons t v) rfl 0
  rw [List.map_cons]
  by_cases hother : t = .command other
  · subst hother
    rw [rename_other, h.further.candidates hd h.kinds_second.1, h.first.candidates hd h.kinds.1,
      h.synonym.same]
    split
    · exact .cons ⟨twin_of_synonym h.synonym, hafter⟩ .nil
    · exact .nil
  · rw [rename_of_ne hother]
    by_cases hown : t = .command own
    · subst hown
      rw [h.first.candidates hd h.kinds.1, h.first.candidates hd h.kinds.1]
      split
      · exact .cons ⟨Entry.Twin.refl main, hafter⟩ .nil
      · exact .nil
    · refine (engine.dictionary.candidates_rel (R := (renamed own other).Aligned depth 0)
        fun reading hreading _ => ?_).imp ?_
      · obtain ⟨havoids, havoids'⟩ := h.avoids hd hown hother hreading
        have hmatch := matchTokens_rename havoids havoids' (t :: v)
        rw [List.map_cons, rename_of_ne hother] at hmatch
        rw [hmatch]
        cases hrest : matchTokens reading.trigger.tokens (t :: v) with
        | none => exact .none
        | some rest => exact .some (renamed_suffix hv (matchTokens_suffix hrest).1 rfl 0)
      · rintro found found' ⟨hentry, hafter⟩
        exact ⟨hentry ▸ Entry.Twin.refl found.entry, hafter⟩

end Synonyms

end Reader

end Formula
