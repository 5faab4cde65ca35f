import Formula.Proofs.Reader.Place

/-!
  **More blanks between the same tokens.**

  The tokens of a formula may be written with more blanks between them, except where a blank says
  something: inside a numeral, between a command and its argument or one argument and the next, and
  inside the name of a block.  `Padded` relates tokens to the same tokens with more blanks.  It
  remembers the token in front of the place and whether the place is inside a name, since that
  decides where a blank may be added.

  Every function that moves from a place to a later one takes a place and its padded twin to a place
  and its padded twin.  The inductions are on `Padded`: a token is passed on both sides, an added
  blank on one.
-/

namespace Formula

/-- The token may be part of a numeral. -/
def Token.isNumeral : Token → Bool
  | .char c => c.isDigit || c == '.'
  | _ => false

/-- A group right after the token would be an argument. -/
def Token.takesArgument : Token → Bool
  | .command _ => true
  | .groupEnd => true
  | _ => false

/-- Is the place behind a token inside the name of a block?  A name reaches from `\begin` or `\end`
    to the first end of a group. -/
def Token.named (t : Token) (named : Bool) : Bool :=
  if t.isCommand "\\begin" || t.isCommand "\\end" then true
  else if t = .groupEnd then false
  else named

namespace Reader

/-! ### Padded tokens -/

/-- A blank may be added between the two tokens. -/
structure MayPad (prev : Option Token) (named : Bool) (next : Option Token) : Prop where
  outside : named = false
  numeral : ¬ (prev.any Token.isNumeral = true ∧ next.any Token.isNumeral = true)
  argument : ¬ (prev.any Token.takesArgument = true ∧ next = some .groupStart)

/-- The same tokens with more blanks, behind the token `prev` and inside a name or not. -/
inductive Padded : Option Token → Bool → List Token → List Token → Prop where
  | nil {prev : Option Token} {named : Bool} : Padded prev named [] []
  | keep {prev : Option Token} {named : Bool} {s s' : List Token} (t : Token)
      (h : Padded (some t) (t.named named) s s') : Padded prev named (t :: s) (t :: s')
  | blank {prev : Option Token} {named : Bool} {s s' : List Token}
      (may : MayPad prev named s.head?) (h : Padded prev named s s') :
      Padded prev named s (.space :: s')

/-- The same place in padded tokens. -/
def Aligned (s s' : List Token) : Prop := ∃ prev named, Padded prev named s s'

/-- The same place in padded tokens, where no blank stands in front. -/
inductive Flush (named : Bool) : List Token → List Token → Prop where
  | nil : Flush named [] []
  | cons {t : Token} {s s' : List Token} (h : Padded (some t) (t.named named) s s') :
      Flush named (t :: s) (t :: s')

theorem aligned_nil : Aligned [] [] := ⟨none, false, .nil⟩

theorem Padded.aligned {prev : Option Token} {named : Bool} {s s' : List Token}
    (h : Padded prev named s s') : Aligned s s' := ⟨prev, named, h⟩

theorem Flush.padded {named : Bool} {s s' : List Token} (h : Flush named s s')
    (prev : Option Token) : Padded prev named s s' := by
  cases h with
  | nil => exact .nil
  | cons h => exact .keep _ h

theorem Flush.aligned {named : Bool} {s s' : List Token} (h : Flush named s s') : Aligned s s' :=
  (h.padded none).aligned

theorem Flush.head?_eq {named : Bool} {s s' : List Token} (h : Flush named s s') :
    s.head? = s'.head? := by
  cases h <;> rfl

theorem Flush.isEmpty_eq {named : Bool} {s s' : List Token} (h : Flush named s s') :
    s.isEmpty = s'.isEmpty := by
  cases h <;> rfl

/-- Behind the next token. -/
theorem Flush.drop_one {named : Bool} {s s' : List Token} (h : Flush named s s') :
    Aligned (s.drop 1) (s'.drop 1) := by
  cases h with
  | nil => exact aligned_nil
  | cons h => exact h.aligned

variable {prev : Option Token} {named : Bool} {s s' : List Token}

/-! ### Blanks -/

/-- Behind blanks of some kind. -/
theorem Padded.dropWhile {test : Token → Bool} (hspace : test .space = true)
    (hnamed : ∀ t named, test t = true → t.named named = named) (h : Padded prev named s s') :
    Flush named (s.dropWhile test) (s'.dropWhile test) := by
  induction h with
  | nil => exact .nil
  | @keep prev named s s' t h ih =>
    by_cases ht : test t = true
    · rw [List.dropWhile_cons_of_pos ht, List.dropWhile_cons_of_pos ht, ← hnamed t named ht]
      exact ih
    · rw [List.dropWhile_cons_of_neg ht, List.dropWhile_cons_of_neg ht]
      exact .cons h
  | blank may h ih =>
    rw [List.dropWhile_cons_of_pos hspace]
    exact ih

theorem named_of_isSpacing (t : Token) (named : Bool) (h : isSpacing t = true) :
    t.named named = named := by
  cases t with
  | command text =>
    have hspacing : text ∈ spacingCommands := by simpa [isSpacing] using h
    have hbegin : text ≠ "\\begin" := by
      rintro rfl
      exact absurd hspacing (by decide)
    have hend : text ≠ "\\end" := by
      rintro rfl
      exact absurd hspacing (by decide)
    simp [Token.named, Token.isCommand, hbegin, hend]
  | space => rfl
  | _ => cases h

theorem Padded.skipSpace (h : Padded prev named s s') : Flush named (skipSpace s) (skipSpace s') :=
  h.dropWhile rfl named_of_isSpacing

theorem Padded.skipDelimiter (h : Padded prev named s s') :
    Aligned (skipDelimiter s) (skipDelimiter s') :=
  h.skipSpace.drop_one

/-! ### Groups -/

/-- The count ends at the same closing token, since an added blank neither opens nor closes. -/
theorem Padded.skipPaired {opens closes : Token → Bool} {finish : List Token → List Token}
    {R : List Token → List Token → Prop} (hopens : opens .space = false)
    (hcloses : closes .space = false) (hnil : R [] [])
    (hfinish : ∀ {t named rest rest'}, closes t = true →
      Padded (some t) (t.named named) rest rest' → R (finish rest) (finish rest'))
    (h : Padded prev named s s') (depth : Nat) :
    R (skipPaired opens closes finish depth s) (skipPaired opens closes finish depth s') := by
  induction h generalizing depth with
  | nil => exact hnil
  | keep t h ih =>
    rw [Reader.skipPaired, Reader.skipPaired]
    split
    · exact ih (depth + 1)
    · split
      · rename_i hclose
        split
        · exact hfinish hclose h
        · exact ih (depth - 1)
      · exact ih depth
  | @blank _ _ _ s' may h ih =>
    have hblank : Reader.skipPaired opens closes finish depth (.space :: s') =
        Reader.skipPaired opens closes finish depth s' := by
      simp [Reader.skipPaired, hopens, hcloses]
    rw [hblank]
    exact ih depth

theorem Padded.skipGroup (h : Padded prev named s s') (depth : Nat) :
    Padded (some .groupEnd) false (skipGroup depth s) (skipGroup depth s') := by
  rw [skipGroup_eq, skipGroup_eq]
  refine h.skipPaired rfl rfl .nil ?_ depth
  intro t named rest rest' hclose hrest
  obtain rfl : t = .groupEnd := eq_of_beq hclose
  exact hrest

/-- Behind the groups that follow a command or another group. -/
theorem Padded.skipGroups {t : Token} (ht : t.takesArgument = true)
    (h : Padded (some t) named s s') : Aligned (skipGroups s) (skipGroups s') := by
  induction hn : s.length using Nat.strongRecOn generalizing t named s s' with
  | _ n ih =>
  cases h with
  | nil =>
    rw [skipGroups_of_not (by simp)]
    exact aligned_nil
  | @keep _ _ s s' u h =>
    by_cases hgroup : u = .groupStart
    · subst hgroup
      rw [Reader.skipGroups, Reader.skipGroups]
      have hlength := length_skipGroup_le 1 s
      simp only [List.length_cons] at hn
      exact ih _ (by omega) (t := .groupEnd) rfl (h.skipGroup 1) rfl
    · rw [skipGroups_of_not (by simp [hgroup]), skipGroups_of_not (by simp [hgroup])]
      exact ⟨none, _, .keep u h⟩
  | @blank _ _ _ s' may h =>
    have hnext : s.head? ≠ some .groupStart := fun hnext => may.argument ⟨ht, hnext⟩
    rw [skipGroups_of_not hnext, skipGroups_of_not (by simp)]
    exact (Padded.blank may h).aligned

/-- An argument follows on both sides or on none. -/
theorem Padded.nextIs_groupStart {t : Token} (ht : t.takesArgument = true)
    (h : Padded (some t) named s s') :
    nextIs (· == .groupStart) s = nextIs (· == .groupStart) s' := by
  cases h with
  | nil => rfl
  | keep u h => rfl
  | blank may h =>
    cases s with
    | nil => rfl
    | cons u s =>
      have hother : u ≠ .groupStart := by
        rintro rfl
        exact may.argument ⟨ht, rfl⟩
      exact beq_eq_false_iff_ne.mpr hother

/-! ### Blocks and delimiters -/

/-- Inside a name no blank is added, up to the end of a group. -/
theorem Padded.name (h : Padded prev true s s') :
    s.takeWhile (· != .groupEnd) = s'.takeWhile (· != .groupEnd) ∧
      Aligned ((s.dropWhile (· != .groupEnd)).drop 1) ((s'.dropWhile (· != .groupEnd)).drop 1) := by
  generalize hname : true = named at h
  induction h with
  | nil => exact ⟨rfl, aligned_nil⟩
  | @keep _ named _ _ t h ih =>
    by_cases hend : t = .groupEnd
    · subst hend
      simpa using h.aligned
    · have hnamed : true = t.named named := by
        rw [Token.named, if_neg hend, ← hname, ite_self]
      obtain ⟨htake, hdrop⟩ := ih hnamed
      simpa [hend, htake] using hdrop
  | blank may h ih =>
    rw [← hname] at may
    cases may.outside

theorem groupText_group {s inside : List Token} (h : skipSpace s = .groupStart :: inside) :
    groupText s =
      (some (String.ofList (Text.trim
          ((inside.takeWhile (· != .groupEnd)).flatMap Token.toList))),
        (inside.dropWhile (· != .groupEnd)).drop 1) := by
  unfold groupText
  rw [h]

theorem groupText_of_not {s : List Token} (h : (skipSpace s).head? ≠ some .groupStart) :
    groupText s = (none, skipSpace s) := by
  unfold groupText
  split
  · rename_i inside heq
    rw [heq] at h
    exact absurd rfl h
  · rfl

theorem Padded.groupText (h : Padded prev true s s') :
    (groupText s).1 = (groupText s').1 ∧ Aligned (groupText s).2 (groupText s').2 := by
  have hstart := h.skipSpace
  by_cases hgroup : (Reader.skipSpace s).head? = some .groupStart
  · generalize hu : Reader.skipSpace s = u at hstart hgroup
    generalize hu' : Reader.skipSpace s' = u' at hstart
    cases hstart with
    | nil => cases hgroup
    | cons h =>
      cases hgroup
      obtain ⟨htake, hdrop⟩ := Padded.name h
      rw [groupText_group hu, groupText_group hu', htake]
      exact ⟨rfl, hdrop⟩
  · rw [groupText_of_not hgroup, groupText_of_not (hstart.head?_eq ▸ hgroup)]
    exact ⟨rfl, hstart.aligned⟩

theorem named_of_isCommand {t : Token} (named : Bool)
    (h : t.isCommand "\\begin" = true ∨ t.isCommand "\\end" = true) : t.named named = true := by
  rw [Token.named, if_pos (by simpa using h)]

theorem Padded.skipEnvironment (h : Padded prev named s s') (depth : Nat) :
    Aligned (skipEnvironment depth s) (skipEnvironment depth s') := by
  rw [skipEnvironment_eq, skipEnvironment_eq]
  refine h.skipPaired rfl rfl aligned_nil ?_ depth
  intro t named rest rest' hend hrest
  rw [named_of_isCommand named (Or.inr hend)] at hrest
  exact hrest.groupText.2

theorem Padded.skipLeft (h : Padded prev named s s') (depth : Nat) :
    Aligned (skipLeft depth s) (skipLeft depth s') := by
  rw [skipLeft_eq, skipLeft_eq]
  exact h.skipPaired rfl rfl aligned_nil (fun _ hrest => hrest.skipDelimiter) depth

theorem Flush.environmentEnd? (h : Flush named s s') (name : String) :
    Option.Rel Aligned (environmentEnd? name s) (environmentEnd? name s') := by
  cases h with
  | nil => exact .none
  | @cons t v v' h =>
    unfold Reader.environmentEnd?
    by_cases hend : t.isCommand "\\end" = true
    · rw [named_of_isCommand named (Or.inr hend)] at h
      obtain ⟨htext, hafter⟩ := h.groupText
      simp only [if_pos hend]
      generalize groupText v = found at htext hafter
      generalize groupText v' = found' at htext hafter
      obtain ⟨text, after⟩ := found
      obtain ⟨text', after'⟩ := found'
      cases htext
      cases text with
      | none => exact .none
      | some text =>
        dsimp only
        split
        · exact .some hafter
        · exact .none
    · simp only [if_neg hend]
      exact .none

/-! ### Numerals -/

theorem digit_isNumeral {t : Token} (h : t.isDigit = true) : t.isNumeral = true := by
  cases t with
  | char c => simp [Token.isNumeral, show c.isDigit = true from h]
  | _ => cases h

theorem digit_named {t : Token} (h : t.isNumeral = true) (named : Bool) :
    t.named named = named := by
  cases t with
  | char c => simp [Token.named, Token.isCommand]
  | _ => cases h

/-- Digits in a numeral are the same digits. -/
theorem Padded.digits (h : Padded prev named s s') (hprev : prev.any Token.isNumeral = true) :
    s.takeWhile Token.isDigit = s'.takeWhile Token.isDigit ∧
      ∃ prev', prev'.any Token.isNumeral = true ∧
        Padded prev' named (s.dropWhile Token.isDigit) (s'.dropWhile Token.isDigit) := by
  induction h with
  | @nil prev named => exact ⟨rfl, prev, hprev, .nil⟩
  | @keep prev named s s' t h ih =>
    by_cases ht : t.isDigit = true
    · obtain ⟨htake, hdrop⟩ := ih (digit_isNumeral ht)
      rw [digit_named (digit_isNumeral ht)] at hdrop
      simp only [List.takeWhile_cons_of_pos ht, List.dropWhile_cons_of_pos ht, htake]
      exact ⟨trivial, hdrop⟩
    · simp only [List.takeWhile_cons_of_neg ht, List.dropWhile_cons_of_neg ht]
      exact ⟨trivial, prev, hprev, .keep t h⟩
  | @blank prev named s s' may h ih =>
    have hspace : ¬ Token.space.isDigit = true := by decide
    have hnext : ∀ t, s.head? = some t → ¬ t.isDigit = true := by
      intro t ht hdigit
      exact may.numeral ⟨hprev, by simp [ht, digit_isNumeral hdigit]⟩
    rw [List.takeWhile_cons_of_neg hspace, List.dropWhile_cons_of_neg hspace]
    cases s with
    | nil => exact ⟨rfl, prev, hprev, .blank may h⟩
    | cons t s =>
      rw [List.takeWhile_cons_of_neg (hnext t rfl), List.dropWhile_cons_of_neg (hnext t rfl)]
      exact ⟨rfl, prev, hprev, .blank may h⟩

/-- A digit follows a point on both sides or on none. -/
theorem Padded.digit_iff (h : Padded prev named s s') (hprev : prev.any Token.isNumeral = true) :
    s.head?.any Token.isDigit = s'.head?.any Token.isDigit := by
  cases h with
  | nil => rfl
  | keep t h => rfl
  | @blank _ _ _ s' may h =>
    cases s with
    | nil => rfl
    | cons t s =>
      have hdigit : t.isDigit = false := by
        rw [← Bool.not_eq_true]
        intro hdigit
        exact may.numeral ⟨hprev, digit_isNumeral hdigit⟩
      exact hdigit

theorem numeral_of_point {s more : List Token}
    (h : s.dropWhile Token.isDigit = .char '.' :: more) :
    numeral s =
      if more.head?.any Token.isDigit then
        (pointNumber (digitsOf s) (digitsOf more), more.dropWhile Token.isDigit)
      else (wholeNumber (digitsOf s), s.dropWhile Token.isDigit) := by
  unfold numeral
  simp only [h]

theorem numeral_of_not {s : List Token}
    (h : (s.dropWhile Token.isDigit).head? ≠ some (.char '.')) :
    numeral s = (wholeNumber (digitsOf s), s.dropWhile Token.isDigit) := by
  unfold numeral
  dsimp only
  split
  · rename_i more heq
    rw [heq] at h
    exact absurd rfl h
  · rfl

/-- A numeral is the same number in padded tokens. -/
theorem Flush.numeral (h : Flush named s s') (hdigit : s.head?.any Token.isDigit = true) :
    (numeral s).1 = (numeral s').1 ∧ Aligned (numeral s).2 (numeral s').2 := by
  cases h with
  | nil => cases hdigit
  | @cons t v v' h =>
    have ht : t.isDigit = true := hdigit
    obtain ⟨htake, prev, hprev, hafter⟩ := h.digits (digit_isNumeral ht)
    have hwhole : digitsOf (t :: v) = digitsOf (t :: v') := by
      simp only [digitsOf, List.takeWhile_cons_of_pos ht, htake]
    have hdrop : ∀ w : List Token, (t :: w).dropWhile Token.isDigit =
        w.dropWhile Token.isDigit := fun w => List.dropWhile_cons_of_pos ht
    by_cases hpoint : (v.dropWhile Token.isDigit).head? = some (.char '.')
    · -- behind the digits stands a point, and no blank in front of it
      generalize hu : v.dropWhile Token.isDigit = u at hafter hpoint
      generalize hu' : v'.dropWhile Token.isDigit = u' at hafter
      cases hafter with
      | nil => cases hpoint
      | blank may _ => exact absurd ⟨hprev, by rw [hpoint]; rfl⟩ may.numeral
      | @keep _ _ more more' _ h =>
        cases hpoint
        rw [numeral_of_point ((hdrop v).trans hu), numeral_of_point ((hdrop v').trans hu'),
          ← h.digit_iff rfl, hdrop, hdrop, hu, hu', hwhole]
        split
        · obtain ⟨htake, _, _, hrest⟩ := h.digits rfl
          rw [digitsOf, digitsOf, htake]
          exact ⟨rfl, hrest.aligned⟩
        · exact ⟨rfl, none, _, .keep _ h⟩
    · have hpoint' : (v'.dropWhile Token.isDigit).head? ≠ some (.char '.') := by
        generalize v.dropWhile Token.isDigit = u at hafter hpoint
        generalize v'.dropWhile Token.isDigit = u' at hafter ⊢
        cases hafter with
        | nil => exact hpoint
        | keep t h => exact hpoint
        | blank may h => simp
      rw [numeral_of_not (by rwa [hdrop]), numeral_of_not (by rwa [hdrop]), hdrop, hdrop, hwhole]
      exact ⟨rfl, hafter.aligned⟩

/-! ### Triggers -/

/-- Behind a trigger, if it stands here. -/
theorem Flush.matchTokens (h : Flush named s s') (pattern : List Token) :
    Option.Rel Aligned (matchTokens pattern s) (matchTokens pattern s') := by
  induction pattern generalizing named s s' with
  | nil => exact .some h.aligned
  | cons p ps ih =>
    cases h with
    | nil => exact .none
    | @cons t v v' h =>
      cases ps with
      | nil =>
        rw [Formula.matchTokens, Formula.matchTokens]
        split
        · exact .some h.aligned
        · exact .none
      | cons q qs =>
        rw [Formula.matchTokens, Formula.matchTokens]
        split
        · refine ih (h.dropWhile rfl ?_)
          intro t named ht
          cases t <;> first | rfl | cases ht
        · exact .none

end Reader

end Formula
