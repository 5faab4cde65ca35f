import Formula.Dictionary.Entry
import Formula.Proofs.Reader.Paired
import Formula.Reader.Numeral

/-!
  **Places only move forward.**

  A place is the list of the tokens that are left, so a later place is a suffix of an earlier one.
  Every function that passes over tokens gives a suffix of the place it starts from, and those that
  take at least one token give a place that is strictly behind it.
-/

namespace Formula.Reader

/-! ### The order of places -/

/-- The place `rest` is reached from `start` over at least one token. -/
def Past (start rest : List Token) : Prop := rest <:+ start ∧ rest.length < start.length

namespace Past

theorem of_suffix {start middle rest : List Token} (h : Past start middle)
    (hs : rest <:+ middle) : Past start rest :=
  ⟨hs.trans h.1, Nat.lt_of_le_of_lt hs.length_le h.2⟩

theorem after_suffix {start middle rest : List Token} (hs : middle <:+ start)
    (h : Past middle rest) : Past start rest :=
  ⟨h.1.trans hs, Nat.lt_of_lt_of_le h.2 hs.length_le⟩

theorem tail (token : Token) (rest : List Token) : Past (token :: rest) rest :=
  ⟨List.suffix_cons token rest, by simp⟩

theorem drop_one {start : List Token} (h : start ≠ []) : Past start (start.drop 1) := by
  cases start with
  | nil => exact absurd rfl h
  | cons token rest => exact tail token rest

/-- A place behind another one is given by a larger position. -/
theorem exists_drop {tokens rest : List Token} {i : Nat} (hi : i ≤ tokens.length)
    (h : Past (tokens.drop i) rest) :
    ∃ j, i < j ∧ j ≤ tokens.length ∧ rest = tokens.drop j := by
  obtain ⟨⟨gap, hgap⟩, hlt⟩ := h
  have hlen : gap.length + rest.length = tokens.length - i := by
    have := congrArg List.length hgap
    simpa using this
  have hdrop : tokens.drop (i + gap.length) = rest := by
    rw [← List.drop_drop, ← hgap, List.drop_left]
  rw [List.length_drop] at hlt
  exact ⟨i + gap.length, by omega, by omega, hdrop.symm⟩

end Past

/-! ### Blanks -/

theorem skipSpace_suffix (rest : List Token) : skipSpace rest <:+ rest :=
  List.dropWhile_suffix _

/-- What is skipped in front of an expression makes only space. -/
theorem exists_spacing (rest : List Token) :
    ∃ gap, rest = gap ++ skipSpace rest ∧ ∀ t ∈ gap, isSpacing t = true := by
  refine ⟨rest.takeWhile isSpacing, (List.takeWhile_append_dropWhile).symm, ?_⟩
  intro t ht
  exact List.all_eq_true.mp List.all_takeWhile t ht

@[simp] theorem skipSpace_skipSpace (rest : List Token) :
    skipSpace (skipSpace rest) = skipSpace rest := by
  induction rest with
  | nil => rfl
  | cons t rest ih =>
    by_cases h : isSpacing t = true
    · simpa [skipSpace, h] using ih
    · simp [skipSpace, h]

theorem skipSpace_cons_of_not {t : Token} (rest : List Token) (h : isSpacing t = false) :
    skipSpace (t :: rest) = t :: rest := by
  simp [skipSpace, h]

theorem isSpacing_of_flush {t : Token} {rest : List Token} (h : skipSpace (t :: rest) = t :: rest) :
    isSpacing t = false := by
  cases ht : isSpacing t with
  | false => rfl
  | true =>
    have hshort := (skipSpace_suffix rest).length_le
    have hskip : skipSpace (t :: rest) = skipSpace rest := List.dropWhile_cons_of_pos ht
    rw [← hskip, h] at hshort
    exact absurd hshort (Nat.not_succ_le_self _)

theorem skipDelimiter_suffix (rest : List Token) : skipDelimiter rest <:+ rest :=
  (List.drop_suffix 1 _).trans (skipSpace_suffix rest)

/-! ### Groups, blocks and delimiters -/

theorem groupText_suffix (rest : List Token) : (groupText rest).2 <:+ rest := by
  unfold groupText
  split
  · rename_i inside heq
    have hinside : inside <:+ rest :=
      (List.suffix_cons Token.groupStart inside).trans (heq ▸ skipSpace_suffix rest)
    exact ((List.drop_suffix 1 _).trans (List.dropWhile_suffix _)).trans hinside
  · exact skipSpace_suffix rest

theorem skipGroup_suffix (depth : Nat) (rest : List Token) : skipGroup depth rest <:+ rest := by
  rw [skipGroup_eq]
  exact skipPaired_suffix (fun _ => List.suffix_rfl) depth rest

/-- Where no group starts none is passed. -/
theorem skipGroups_of_not {s : List Token} (h : s.head? ≠ some .groupStart) :
    skipGroups s = s := by
  cases s with
  | nil => rw [skipGroups]; simp
  | cons t s =>
    rw [skipGroups]
    rintro rest heq
    cases heq
    exact h rfl

theorem skipGroups_suffix (rest : List Token) : skipGroups rest <:+ rest := by
  fun_induction skipGroups rest with
  | case1 rest ih => exact (ih.trans (skipGroup_suffix 1 rest)).trans (List.suffix_cons _ _)
  | case2 rest hother => exact List.suffix_rfl

theorem skipEnvironment_suffix (depth : Nat) (rest : List Token) :
    skipEnvironment depth rest <:+ rest := by
  rw [skipEnvironment_eq]
  exact skipPaired_suffix groupText_suffix depth rest

theorem skipLeft_suffix (depth : Nat) (rest : List Token) : skipLeft depth rest <:+ rest := by
  rw [skipLeft_eq]
  exact skipPaired_suffix skipDelimiter_suffix depth rest

theorem environmentEnd?_suffix {name : String} {rest after : List Token}
    (h : environmentEnd? name rest = some after) : after <:+ rest := by
  unfold environmentEnd? at h
  split at h
  · rename_i token inside
    split at h
    · have hinside := groupText_suffix inside
      split at h
      · rename_i text after' heq
        rw [heq] at hinside
        split at h
        · cases h
          exact hinside.trans (List.suffix_cons _ _)
        · cases h
      · cases h
    · cases h
  · cases h

/-! ### Triggers and numerals -/

/-- A trigger takes at least as many tokens as it has itself. -/
theorem matchTokens_suffix {pattern rest after : List Token}
    (h : matchTokens pattern rest = some after) :
    after <:+ rest ∧ after.length + pattern.length ≤ rest.length := by
  fun_induction matchTokens pattern rest with
  | case1 rest =>
    cases h
    exact ⟨List.suffix_rfl, by simp⟩
  | case2 => cases h
  | case3 p rest =>
    cases h
    exact ⟨List.suffix_cons _ _, by simp⟩
  | case4 => cases h
  | case5 q ps p rest ih =>
    obtain ⟨hsuffix, hlength⟩ := ih h
    have hblank : rest.dropWhile Token.isSpace <:+ rest := List.dropWhile_suffix _
    have hle := hblank.length_le
    refine ⟨(hsuffix.trans hblank).trans (List.suffix_cons _ _), ?_⟩
    simp only [List.length_cons] at hlength ⊢
    omega
  | case6 => cases h

theorem matchTokens_past {pattern rest after : List Token} (hpattern : pattern ≠ [])
    (h : matchTokens pattern rest = some after) : Past rest after := by
  obtain ⟨hsuffix, hlength⟩ := matchTokens_suffix h
  have := List.length_pos_iff.mpr hpattern
  exact ⟨hsuffix, by omega⟩

theorem numeral_past {token : Token} {rest : List Token} (h : token.isDigit = true) :
    Past (token :: rest) (numeral (token :: rest)).2 := by
  have hafter : (token :: rest).dropWhile Token.isDigit = rest.dropWhile Token.isDigit := by
    simp [h]
  have hrest : rest.dropWhile Token.isDigit <:+ rest := List.dropWhile_suffix _
  unfold numeral
  simp only [hafter]
  split
  · rename_i more heq
    have hmore : more <:+ rest := (List.suffix_cons _ _).trans (heq ▸ hrest)
    split
    · exact (Past.tail token rest).of_suffix ((List.dropWhile_suffix _).trans hmore)
    · exact (Past.tail token rest).of_suffix hrest
  · exact (Past.tail token rest).of_suffix hrest

end Formula.Reader
