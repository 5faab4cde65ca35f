import Formula.Proofs.Reader.Lockstep
import Formula.Proofs.Reader.Padding

/-!
  **Tokens in front of a closing brace.**

  Tokens that close only the groups that are open are read in the same way with a closing brace
  behind them as at the end of the formula.  `Nests n s` says that `s` closes the `n` groups that
  are open in front of it and all those that it opens itself, and never more than are open.

  The reader is inside at most as many groups as braces are open, also where a group was given up
  before its brace came: what is passed without an expression, the arguments of an unknown command
  and the triggers with braces in them, closes what it opens.  So it meets the end of the tokens
  outside all groups only, and there the closing brace ends an expression as the end does.
-/

namespace Formula

/-- The tokens close so many groups that are open in front of them and all those they open. -/
def Nests : Nat → List Token → Bool
  | depth, [] => depth == 0
  | depth, .groupStart :: rest => Nests (depth + 1) rest
  | depth, .groupEnd :: rest =>
    match depth with
    | 0 => false
    | depth + 1 => Nests depth rest
  | depth, _ :: rest => Nests depth rest

/-- Opening braces and closing ones match: no prefix has more closing ones, and there are as many
    of both. -/
structure Balanced (s : List Token) : Prop where
  start : ∀ p, p <+: s → p.count .groupEnd ≤ p.count .groupStart
  total : s.count .groupEnd = s.count .groupStart

namespace Nests

variable {depth : Nat} {t : Token} {s : List Token}

theorem cons_groupEnd (h : Nests depth (.groupEnd :: s) = true) :
    ∃ outer, depth = outer + 1 ∧ Nests outer s = true := by
  cases depth with
  | zero => cases h
  | succ outer => exact ⟨outer, rfl, h⟩

theorem cons_other (hstart : t ≠ .groupStart) (hend : t ≠ .groupEnd) :
    Nests depth (t :: s) = Nests depth s := by
  cases t with
  | groupStart => exact absurd rfl hstart
  | groupEnd => exact absurd rfl hend
  | _ => rw [Nests] <;> simp

/-- Behind a token that does not close a group no fewer groups are open. -/
theorem tail_of_ne (h : Nests depth (t :: s) = true) (hend : t ≠ .groupEnd) :
    ∃ inner, depth ≤ inner ∧ Nests inner s = true := by
  by_cases hstart : t = .groupStart
  · subst hstart
    exact ⟨depth + 1, Nat.le_succ depth, h⟩
  · rw [cons_other hstart hend] at h
    exact ⟨depth, Nat.le_refl depth, h⟩

/-- Behind any token the tokens still close what is open. -/
theorem tail (h : Nests depth (t :: s) = true) : ∃ inner, Nests inner s = true := by
  by_cases hend : t = .groupEnd
  · subst hend
    obtain ⟨outer, -, h⟩ := cons_groupEnd h
    exact ⟨outer, h⟩
  · obtain ⟨inner, -, h⟩ := tail_of_ne h hend
    exact ⟨inner, h⟩

theorem dropWhile {test : Token → Bool} (hstart : test .groupStart = false)
    (hend : test .groupEnd = false) (h : Nests depth s = true) :
    Nests depth (s.dropWhile test) = true := by
  induction s with
  | nil => exact h
  | cons t s ih =>
    by_cases ht : test t = true
    · rw [List.dropWhile_cons_of_pos ht]
      apply ih
      rwa [cons_other] at h
      · rintro rfl
        rw [hstart] at ht
        cases ht
      · rintro rfl
        rw [hend] at ht
        cases ht
    · rwa [List.dropWhile_cons_of_neg ht]

/-- A brace changes the number of groups that are open by one. -/
theorem cons_iff : Nests depth (t :: s) = true ↔
    ∃ inner, depth + [t].count .groupStart = inner + [t].count .groupEnd ∧
      Nests inner s = true := by
  by_cases hend : t = .groupEnd
  · subst hend
    constructor
    · intro h
      obtain ⟨outer, rfl, h⟩ := cons_groupEnd h
      exact ⟨outer, rfl, h⟩
    · rintro ⟨inner, hinner, h⟩
      have hdepth : depth = inner + 1 := hinner
      rw [hdepth]
      exact h
  · have hclosed : [t].count .groupEnd = 0 := by simp [hend]
    rw [hclosed]
    by_cases hstart : t = .groupStart
    · subst hstart
      constructor
      · intro h
        exact ⟨depth + 1, rfl, h⟩
      · rintro ⟨inner, rfl, h⟩
        exact h
    · have hopened : [t].count .groupStart = 0 := by simp [hstart]
      rw [hopened, cons_other hstart hend]
      constructor
      · intro h
        exact ⟨depth, rfl, h⟩
      · rintro ⟨inner, rfl, h⟩
        exact h

theorem count_cons (t u : Token) (s : List Token) : (t :: s).count u = [t].count u + s.count u := by
  rw [← List.count_append, List.singleton_append]

/-- The groups that are open are closed just if no prefix closes more and in the end all are. -/
theorem iff_counts : Nests depth s = true ↔
    (∀ p, p <+: s → p.count .groupEnd ≤ depth + p.count .groupStart) ∧
      s.count .groupEnd = depth + s.count .groupStart := by
  induction s generalizing depth with
  | nil =>
    constructor
    · intro h
      obtain rfl : depth = 0 := by simpa [Nests] using h
      refine ⟨?_, rfl⟩
      intro p hp
      rw [List.prefix_nil.mp hp]
      exact Nat.zero_le _
    · rintro ⟨-, htotal⟩
      obtain rfl : depth = 0 := by simpa using htotal.symm
      rfl
  | cons t s ih =>
    rw [cons_iff, count_cons t .groupStart s, count_cons t .groupEnd s]
    constructor
    · rintro ⟨inner, hinner, h⟩
      obtain ⟨hbelow, htotal⟩ := ih.mp h
      refine ⟨?_, by omega⟩
      intro p hp
      rcases List.prefix_cons_iff.mp hp with rfl | ⟨q, rfl, hq⟩
      · exact Nat.zero_le _
      · have hle := hbelow q hq
        rw [count_cons t .groupStart q, count_cons t .groupEnd q]
        omega
    · rintro ⟨hbelow, htotal⟩
      have hfirst := hbelow [t] (by simp)
      refine ⟨depth + [t].count .groupStart - [t].count .groupEnd, by omega, ih.mpr ⟨?_, by omega⟩⟩
      intro q hq
      have hle := hbelow (t :: q) (List.cons_prefix_cons.mpr ⟨rfl, hq⟩)
      rw [count_cons t .groupStart q, count_cons t .groupEnd q] at hle
      omega

/-- The tokens pass the brace that closes the innermost of the groups that are open in front of
    them: the number of those groups falls by one at a time. -/
theorem exists_close {level : Nat} (h : Nests (depth + level) s = true) (hlevel : 0 < level) :
    ∃ inside outside, s = inside ++ .groupEnd :: outside ∧
      (∀ p, p <+: inside → p.count .groupEnd < level + p.count .groupStart) ∧
      level + inside.count .groupStart = inside.count .groupEnd + 1 ∧
      Nests depth outside = true := by
  induction s generalizing level with
  | nil =>
    have hzero : depth + level = 0 := by simpa [Nests] using h
    omega
  | cons t s ih =>
    by_cases hlast : t = .groupEnd ∧ level = 1
    · obtain ⟨rfl, rfl⟩ := hlast
      refine ⟨[], s, rfl, ?_, rfl, h⟩
      intro p hp
      rw [List.prefix_nil.mp hp]
      exact Nat.one_pos
    · obtain ⟨inner, hinner, hrest⟩ := cons_iff.mp h
      have hbrace : [t].count .groupEnd < level + [t].count .groupStart := by
        by_cases hend : t = .groupEnd
        · subst hend
          have hlevel' : level ≠ 1 := fun hone => hlast ⟨rfl, hone⟩
          show 1 < level + 0
          omega
        · have hclosed : [t].count .groupEnd = 0 := by simp [hend]
          omega
      obtain rfl : inner = depth + (level + [t].count .groupStart - [t].count .groupEnd) := by
        omega
      obtain ⟨inside, outside, rfl, hdeep, htotal, houtside⟩ := ih hrest (by omega)
      refine ⟨t :: inside, outside, rfl, ?_, ?_, houtside⟩
      · intro p hp
        rcases List.prefix_cons_iff.mp hp with rfl | ⟨q, rfl, hq⟩
        · exact Nat.lt_of_lt_of_le hlevel (Nat.le_add_right _ _)
        · have hlt := hdeep q hq
          rw [count_cons t .groupStart q, count_cons t .groupEnd q]
          omega
      · rw [count_cons t .groupStart inside, count_cons t .groupEnd inside]
        omega

end Nests

theorem balanced_iff_nests {s : List Token} : Balanced s ↔ Nests 0 s = true := by
  rw [Nests.iff_counts]
  constructor
  · intro h
    refine ⟨?_, by rw [Nat.zero_add]; exact h.total⟩
    intro p hp
    rw [Nat.zero_add]
    exact h.start p hp
  · rintro ⟨hbelow, htotal⟩
    refine ⟨?_, by rwa [Nat.zero_add] at htotal⟩
    intro p hp
    have hle := hbelow p hp
    rwa [Nat.zero_add] at hle

instance (s : List Token) : Decidable (Balanced s) := decidable_of_iff _ balanced_iff_nests.symm

namespace Reader

/-! ### Passing over tokens in front of a closing brace -/

section

variable {depth : Nat} {s after : List Token}

/-- What does not stop at a brace stops in front of the closing one. -/
theorem dropWhile_append (test : Token → Bool) (hend : test .groupEnd = false)
    (s after : List Token) :
    (s ++ .groupEnd :: after).dropWhile test = s.dropWhile test ++ .groupEnd :: after := by
  induction s with
  | nil => exact List.dropWhile_cons_of_neg (by simp [hend])
  | cons t s ih =>
    by_cases ht : test t = true
    · rw [List.cons_append, List.dropWhile_cons_of_pos ht, List.dropWhile_cons_of_pos ht, ih]
    · rw [List.cons_append, List.dropWhile_cons_of_neg ht, List.dropWhile_cons_of_neg ht,
        List.cons_append]

theorem takeWhile_append (test : Token → Bool) (hend : test .groupEnd = false)
    (s after : List Token) :
    (s ++ .groupEnd :: after).takeWhile test = s.takeWhile test := by
  induction s with
  | nil => exact List.takeWhile_cons_of_neg (by simp [hend])
  | cons t s ih =>
    by_cases ht : test t = true
    · rw [List.cons_append, List.takeWhile_cons_of_pos ht, List.takeWhile_cons_of_pos ht, ih]
    · rw [List.cons_append, List.takeWhile_cons_of_neg ht, List.takeWhile_cons_of_neg ht]

/-- A group is passed up to the brace that closes it. -/
theorem skipGroup_closed {inside : List Token} {level : Nat}
    (hdeep : ∀ p, p <+: inside → p.count .groupEnd < level + p.count .groupStart)
    (hlevel : level + inside.count .groupStart = inside.count .groupEnd + 1) (rest : List Token) :
    skipGroup level (inside ++ .groupEnd :: rest) = rest := by
  rw [skipGroup_eq]
  exact skipPaired_closed braces_apart hdeep hlevel rfl

/-- A group ends in front of the brace if its end stands there. -/
theorem skipGroup_nested (after : List Token) {level : Nat}
    (h : Nests (depth + level) s = true) (hlevel : 0 < level) :
    skipGroup level (s ++ .groupEnd :: after) = skipGroup level s ++ .groupEnd :: after ∧
      Nests depth (skipGroup level s) = true := by
  obtain ⟨inside, outside, rfl, hdeep, hlast, houtside⟩ := Nests.exists_close h hlevel
  rw [List.append_assoc, List.cons_append, skipGroup_closed hdeep hlast,
    skipGroup_closed hdeep hlast]
  exact ⟨rfl, houtside⟩

theorem skipGroups_nested (after : List Token) (h : Nests depth s = true) :
    skipGroups (s ++ .groupEnd :: after) = skipGroups s ++ .groupEnd :: after ∧
      Nests depth (skipGroups s) = true := by
  induction hn : s.length using Nat.strongRecOn generalizing s with
  | _ n ih =>
    by_cases hgroup : s.head? = some .groupStart
    · cases s with
      | nil => cases hgroup
      | cons t s =>
        cases hgroup
        have hinside : Nests (depth + 1) s = true := h
        obtain ⟨hskip, hinner⟩ := skipGroup_nested after hinside Nat.one_pos
        have hlength := length_skipGroup_le 1 s
        simp only [List.length_cons] at hn
        rw [List.cons_append, skipGroups, skipGroups, hskip]
        exact ih _ (by omega) hinner rfl
    · have hgroup' : (s ++ .groupEnd :: after).head? ≠ some .groupStart := by
        cases s with
        | nil => simp
        | cons t s => exact hgroup
      rw [skipGroups_of_not hgroup, skipGroups_of_not hgroup']
      exact ⟨rfl, h⟩

/-- A pattern and the tokens pass the same token. -/
theorem nests_step {t : Token} {p : List Token} {level : Nat} (hp : Nests level (t :: p) = true)
    (h : Nests (depth + level) (t :: s) = true) :
    ∃ inner, Nests inner p = true ∧ Nests (depth + inner) s = true := by
  by_cases hend : t = .groupEnd
  · subst hend
    obtain ⟨outer, rfl, hp⟩ := Nests.cons_groupEnd hp
    obtain ⟨outer', houter, h⟩ := Nests.cons_groupEnd h
    obtain rfl : outer' = depth + outer := by omega
    exact ⟨outer, hp, h⟩
  · by_cases hstart : t = .groupStart
    · subst hstart
      exact ⟨level + 1, hp, h⟩
    · rw [Nests.cons_other hstart hend] at hp h
      exact ⟨level, hp, h⟩

/-- A pattern that closes what it opens stands in front of the brace if it stands there at all. -/
theorem matchTokens_nested (after : List Token) {p : List Token} {level : Nat}
    (hp : Nests level p = true)
    (h : Nests (depth + level) s = true) :
    Option.Rel (fun rest rest' => rest' = rest ++ .groupEnd :: after ∧ Nests depth rest = true)
      (matchTokens p s) (matchTokens p (s ++ .groupEnd :: after)) := by
  induction p generalizing level s with
  | nil =>
    obtain rfl : level = 0 := by simpa [Nests] using hp
    exact .some ⟨rfl, h⟩
  | cons q ps ih =>
    cases s with
    | nil =>
      obtain rfl : level = 0 := by
        have hzero : depth + level = 0 := by simpa [Nests] using h
        omega
      have hother : Token.groupEnd ≠ q := by
        rintro rfl
        cases hp
      rw [List.nil_append]
      cases ps <;> simp only [matchTokens, if_neg hother] <;> exact .none
    | cons t s =>
      by_cases ht : t = q
      · subst ht
        obtain ⟨inner, hps, hinner⟩ := nests_step hp h
        cases ps with
        | nil =>
          obtain rfl : inner = 0 := by simpa [Nests] using hps
          simp only [List.cons_append, matchTokens, if_true]
          exact .some ⟨rfl, hinner⟩
        | cons r ps =>
          simp only [List.cons_append, matchTokens, if_true,
            dropWhile_append Token.isSpace rfl s after]
          exact ih hps (Nests.dropWhile rfl rfl hinner)
      · cases ps <;> simp only [List.cons_append, matchTokens, if_neg ht] <;> exact .none

theorem digitsOf_append (s : List Token) :
    digitsOf (s ++ .groupEnd :: after) = digitsOf s := by
  rw [digitsOf, digitsOf, takeWhile_append Token.isDigit rfl s after]

/-- A numeral ends in front of the brace. -/
theorem numeral_nested (after : List Token) (h : Nests depth s = true) :
    (numeral (s ++ .groupEnd :: after)).1 = (numeral s).1 ∧
      (numeral (s ++ .groupEnd :: after)).2 = (numeral s).2 ++ .groupEnd :: after ∧
      Nests depth (numeral s).2 = true := by
  have hdigits : Nests depth (s.dropWhile Token.isDigit) = true := Nests.dropWhile rfl rfl h
  have hwhole : (s ++ .groupEnd :: after).dropWhile Token.isDigit =
      s.dropWhile Token.isDigit ++ .groupEnd :: after :=
    dropWhile_append Token.isDigit rfl s after
  by_cases hpoint : (s.dropWhile Token.isDigit).head? = some (.char '.')
  · obtain ⟨more, hmore⟩ : ∃ more, s.dropWhile Token.isDigit = .char '.' :: more := by
      cases hrest : s.dropWhile Token.isDigit with
      | nil =>
        rw [hrest] at hpoint
        cases hpoint
      | cons t more =>
        rw [hrest] at hpoint
        cases hpoint
        exact ⟨more, rfl⟩
    have hmore' : (s ++ .groupEnd :: after).dropWhile Token.isDigit =
        .char '.' :: (more ++ .groupEnd :: after) := by
      rw [hwhole, hmore, List.cons_append]
    have hnext : (more ++ .groupEnd :: after).head?.any Token.isDigit =
        more.head?.any Token.isDigit := by
      cases more with
      | nil => rfl
      | cons t more => rfl
    have hinside : Nests depth more = true := by
      rwa [hmore, Nests.cons_other (by simp) (by simp)] at hdigits
    rw [numeral_of_point hmore, numeral_of_point hmore', hnext, digitsOf_append, digitsOf_append,
      hwhole]
    split
    · exact ⟨rfl, dropWhile_append Token.isDigit rfl more after, Nests.dropWhile rfl rfl hinside⟩
    · exact ⟨rfl, rfl, hdigits⟩
  · have hpoint' : ((s ++ .groupEnd :: after).dropWhile Token.isDigit).head? ≠
        some (.char '.') := by
      rw [hwhole]
      cases hrest : s.dropWhile Token.isDigit with
      | nil => simp
      | cons t more =>
        rw [hrest] at hpoint
        exact hpoint
    rw [numeral_of_not hpoint, numeral_of_not hpoint', digitsOf_append, hwhole]
    exact ⟨rfl, rfl, hdigits⟩

end

/-! ### The correspondence -/

/-- The token neither starts nor ends a block, nor a part between `\left` and `\right`. -/
def Unfenced (t : Token) : Prop :=
  ∀ name ∈ ["\\begin", "\\end", "\\left", "\\right"], t.isCommand name = false

instance (t : Token) : Decidable (Unfenced t) :=
  inferInstanceAs (Decidable (∀ name ∈ ["\\begin", "\\end", "\\left", "\\right"],
    t.isCommand name = false))

theorem Unfenced.not_command {t : Token} (h : Unfenced t) {name : String}
    (hname : name ∈ ["\\begin", "\\end", "\\left", "\\right"]) : ¬ t.isCommand name = true := by
  rw [h name hname]
  exact Bool.false_ne_true

/-- Tokens at the end of a formula, and the same tokens in front of a closing brace. -/
def bracing (after : List Token) : Correspondence where
  Like := Eq
  Aligned depth _ s s' :=
    s' = s ++ .groupEnd :: after ∧ (∃ open', Nests (depth + open') s = true) ∧ ∀ t ∈ s, Unfenced t
  Admits p := Nests 0 p = true
  Seen _ _ := True

/-- The braces in the triggers of an engine match. -/
structure BracesMatch (engine : Engine Unit) : Prop where
  triggers : ∀ entry ∈ engine.dictionary.entries, ∀ trigger ∈ entry.matchedTriggers,
    Nests 0 trigger.tokens = true
  close : ∀ entry ∈ engine.dictionary.entries, ∀ close ∈ entry.close, Nests 0 close.tokens = true

variable {engine : Engine Unit} {after : List Token} {depth bound : Nat} {s s' : List Token}

theorem between_append (s rest after : List Token) :
    between (s ++ after) (rest ++ after) = between s rest := by
  have hlength : (s ++ after).length - (rest ++ after).length = s.length - rest.length := by
    simp only [List.length_append]
    omega
  rw [between, between, hlength, List.take_append_of_le_length (Nat.sub_le _ _)]

/-- A later place in front of the same brace. -/
theorem bracing_later {rest rest' : List Token} {more : Nat}
    (h : (bracing after).Aligned depth bound s s') (hsuffix : rest <:+ s)
    (hrest' : rest' = rest ++ .groupEnd :: after) (hnests : Nests (depth + more) rest = true)
    (inner : Nat) :
    (bracing after).Aligned depth inner rest rest' :=
  ⟨hrest', ⟨more, hnests⟩, fun t ht => h.2.2 t (hsuffix.subset ht)⟩

/-- The next token is the same, and it neither starts nor ends a block. -/
theorem bracing_next {t t' : Token} {v v' : List Token}
    (h : (bracing after).Flush depth bound (t :: v) (t' :: v')) :
    t' = t ∧ v' = v ++ .groupEnd :: after ∧ Unfenced t ∧
      ∃ more, Nests (depth + more) (t :: v) = true := by
  obtain ⟨⟨heq, hnests, hplain⟩, -, -⟩ := h
  rw [List.cons_append, List.cons.injEq] at heq
  exact ⟨heq.1, heq.2, hplain t List.mem_cons_self, hnests⟩

theorem bracing_pattern {p : List Token} (level : Nat) (hp : Nests level p = true)
    (h : (bracing after).Aligned (depth + level) bound s s') :
    Option.Rel ((bracing after).Aligned depth 0) (matchTokens p s) (matchTokens p s') := by
  obtain ⟨rfl, ⟨more, hnests⟩, hplain⟩ := h
  rw [Nat.add_right_comm] at hnests
  have hmatch := matchTokens_nested after hp hnests
  generalize hrest : matchTokens p s = rest at hmatch ⊢
  generalize matchTokens p (s ++ .groupEnd :: after) = rest' at hmatch ⊢
  cases hmatch with
  | none => exact .none
  | some hmatch =>
    have hsuffix := (matchTokens_suffix hrest).1
    exact .some ⟨hmatch.1, ⟨more, hmatch.2⟩, fun t ht => hplain t (hsuffix.subset ht)⟩

/-- Where the tokens end the closing brace stands, and both end an expression. -/
theorem bracing_terminator {stop : Terminator} (hstop : (bracing after).Stops stop)
    (h : (bracing after).Flush depth bound s s') :
    atTerminator engine.dictionary stop s = atTerminator engine.dictionary stop s' := by
  have hclose : ∀ close, stop.close = some close →
      (matchTokens close s).isSome = (matchTokens close s').isSome := by
    intro close hclose
    have hmatch := bracing_pattern 0 (hstop close hclose) h.aligned
    generalize matchTokens close s = rest at hmatch ⊢
    generalize matchTokens close s' = rest' at hmatch ⊢
    cases hmatch <;> rfl
  obtain ⟨⟨rfl, -, -⟩, -, -⟩ := h
  cases s with
  | nil => simp [atTerminator, isBoundary]
  | cons t v =>
    rw [List.cons_append] at hclose ⊢
    cases hstop' : stop.close with
    | none => simp only [atTerminator, hstop', Option.any_none]
    | some close => simp only [atTerminator, hstop', Option.any_some, hclose close hstop']

theorem likeness_bracing (after : List Token) (engine : Engine Unit) :
    (bracing after).Likeness engine where
  refl _ := rfl
  hasHead h _ := congrArg _ h
  ops h _ _ _ := by
    cases h
    exact List.forall₂_same.mpr fun _ _ => rfl
  domain h := congrArg _ h
  call head xs ys h := by
    have hsame : xs = ys := List.forall₂_eq_eq_eq ▸ h
    exact congrArg _ hsame

/-- Where the braces in the triggers match, tokens are read in lockstep in front of a closing brace
    and at the end. -/
theorem lockstep_bracing (h : engine.Accepted) (hbraces : BracesMatch engine)
    (hscripts : ∀ entry ∈ engine.dictionary.entries, ∀ handler, entry.parse = .custom handler →
      handler ∈ Standard.scripts) : (bracing after).Lockstep engine where
  like := likeness_bracing after engine
  error := by
    rintro depth bound depth' bound' s s' rest rest' ⟨rfl, -⟩ ⟨rfl, -⟩ code argument
    rw [between_append]
    rfl
  script entry hentry handler hparse :=
    Correspondence.sameHandler_standard (likeness_bracing after engine)
      (hscripts entry hentry handler hparse)
  tight h _ := h
  outward := by
    rintro depth bound s s' ⟨heq, ⟨more, hnests⟩, hplain⟩
    rw [Nat.add_assoc] at hnests
    exact ⟨heq, ⟨1 + more, hnests⟩, hplain⟩
  seen _ := trivial
  skipSpace := by
    intro depth bound s s' h
    obtain ⟨more, hnests⟩ := h.2.1
    exact bracing_later h (skipSpace_suffix s) (h.1 ▸ dropWhile_append isSpacing rfl s after)
      (Nests.dropWhile rfl rfl hnests) bound
  terminator := bracing_terminator
  halted _ h _ := h.aligned
  pattern hp h := bracing_pattern 0 hp h.aligned
  cell := rfl
  row := rfl
  close entry hentry _ := by
    show Nests 0 _ = true
    cases hclose : entry.close with
    | none => rfl
    | some close => exact hbraces.close entry hentry close hclose
  groupEnd h := bracing_pattern 1 rfl h.aligned
  start := by
    rintro depth t v s' ⟨⟨rfl, -⟩, -⟩
    exact ⟨t, _, rfl, Or.inl rfl⟩
  candidates := by
    intro depth t v s' kinds hflush
    obtain ⟨rfl, -⟩ := hflush.aligned
    refine (engine.dictionary.candidates_rel (R := (bracing after).Aligned depth 0)
      fun reading hreading _ => ?_).imp ?_
    · obtain ⟨hentry, htrigger, -⟩ := h.mem_readings hreading
      exact bracing_pattern 0 (hbraces.triggers _ hentry _ htrigger) hflush.aligned
    · rintro found found' ⟨hentry, hafter⟩
      exact ⟨hentry ▸ Entry.Twin.refl found.entry, hafter⟩
  next := by
    intro depth t v v' h hboundary
    obtain ⟨-, hv, -, more, hnests⟩ := bracing_next h
    obtain ⟨inner, hinner, hnests⟩ := Nests.tail_of_ne hnests (by rintro rfl; cases hboundary)
    obtain ⟨more', rfl⟩ := Nat.exists_eq_add_of_le hinner
    rw [Nat.add_assoc] at hnests
    exact ⟨0, bracing_later h.aligned (List.suffix_cons t v) hv hnests 0⟩
  group := by
    intro depth v v' h
    obtain ⟨-, hv, -, more, hnests⟩ := bracing_next h
    have hinside : Nests (depth + 1 + more) v = true := by
      rw [Nat.add_right_comm]
      exact hnests
    exact ⟨hv, ⟨more, hinside⟩, fun t ht => h.aligned.2.2 t (List.mem_cons_of_mem _ ht)⟩
  numeral := by
    intro depth t v v' h hdigit
    obtain ⟨-, rfl, -, more, hnests⟩ := bracing_next h
    obtain ⟨hvalue, hrest, hafter⟩ := numeral_nested after hnests
    exact ⟨hvalue.symm, 0, bracing_later h.aligned (numeral_past hdigit).1 hrest hafter 0⟩
  arguments := by
    intro depth name v v' h
    obtain ⟨-, rfl, -, more, hnests⟩ := bracing_next h
    rw [Nests.cons_other (by simp) (by simp)] at hnests
    obtain ⟨hrest, hafter⟩ := skipGroups_nested after hnests
    refine ⟨?_, 0, bracing_later h.aligned
      ((skipGroups_suffix v).trans (List.suffix_cons _ v)) hrest hafter 0⟩
    cases v <;> rfl
  left h ht := absurd ht ((bracing_next h).2.2.1.not_command (by simp))
  blocks h ht := absurd ht ((bracing_next h).2.2.1.not_command (by simp))
  right h ht := absurd ht ((bracing_next h).2.2.1.not_command (by simp))
  ends h ht := absurd ht ((bracing_next h).2.2.1.not_command (by simp))
  drop := by
    intro t t' v v' h _
    obtain ⟨-, hv, -, more, hnests⟩ := bracing_next h
    obtain ⟨inner, hinner⟩ := Nests.tail hnests
    have hinside : Nests (0 + inner) v = true := by rwa [Nat.zero_add]
    exact bracing_later h.aligned (List.suffix_cons t v) hv hinside 0
  pending _ _ h _ hnot _ _ := absurd h.aligned hnot

end Reader

end Formula
