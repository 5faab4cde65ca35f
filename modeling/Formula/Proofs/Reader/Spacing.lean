import Formula.Proofs.Reader.Lockstep
import Formula.Proofs.Reader.NormalForm
import Formula.Proofs.Reader.Padding

/-!
  **Reading padded tokens.**

  A formula and the same formula with more blanks are read side by side.  They correspond in the
  places of padded tokens; braces and bounds make no difference.  Where the reader looks at the next
  token it has come to a place that is `Flush`, and the next token is then the same.
-/

namespace Formula

open Formula.Tree (Alike)

namespace Reader

/-- The places of padded tokens. -/
def padding : Correspondence where
  Like := Alike
  Aligned _ _ := Aligned
  Admits _ := True
  Seen _ _ := True

variable {engine : Engine Unit} {depth bound : Nat} {s s' : List Token}

/-- Without a blank in front the next token is the same. -/
theorem exists_flush (h : padding.Flush depth bound s s') : ∃ named, Flush named s s' := by
  obtain ⟨⟨prev, named, h⟩, -, hright⟩ := h
  cases h with
  | nil => exact ⟨false, .nil⟩
  | keep t h => exact ⟨named, .cons h⟩
  | @blank _ _ _ s' may h =>
    have hshort := (skipSpace_suffix s').length_le
    have hblank : skipSpace (.space :: s') = skipSpace s' := rfl
    rw [← hblank, hright] at hshort
    exact absurd hshort (Nat.not_succ_le_self _)

/-- Behind the next token. -/
theorem exists_padded {t t' : Token} {v v' : List Token}
    (h : padding.Flush depth bound (t :: v) (t' :: v')) :
    t' = t ∧ ∃ named, Padded (some t) (t.named named) v v' := by
  obtain ⟨named, h⟩ := exists_flush h
  cases h with
  | cons h => exact ⟨rfl, named, h⟩

theorem atTerminator_padded (d : Dictionary Unit) (stop : Terminator) {named : Bool}
    (h : Flush named s s') : atTerminator d stop s = atTerminator d stop s' := by
  cases h with
  | nil => rfl
  | @cons t v v' h =>
    have hclose : ∀ close, (matchTokens close (t :: v)).isSome =
        (matchTokens close (t :: v')).isSome := by
      intro close
      have hmatch := (Flush.cons h).matchTokens close
      generalize matchTokens close (t :: v) = after at hmatch
      generalize matchTokens close (t :: v') = after' at hmatch
      cases hmatch <;> rfl
    simp only [atTerminator, hclose]

theorem whole_padding : padding.Whole where
  level h := h
  isEmpty h := by
    obtain ⟨named, h⟩ := exists_flush h
    exact h.isEmpty_eq

theorem blocks_padding : padding.Blocks where
  loose _ _ _ _ h := h
  name := by
    rintro depth bound t v v' ⟨prev, named, h⟩ ht
    cases h with
    | keep _ h =>
      rw [named_of_isCommand named (Or.inl ht)] at h
      exact h.groupText
    | blank may h => cases ht
  skip := by
    rintro depth s s' ⟨prev, named, h⟩
    exact h.skipEnvironment 1
  close name h := by
    obtain ⟨named, h⟩ := exists_flush h
    exact h.environmentEnd? name

/-- Padded tokens are read in lockstep. -/
theorem lockstep_padding
    (hscripts : ∀ entry ∈ engine.dictionary.entries, ∀ handler, entry.parse = .custom handler →
      handler ∈ Standard.scripts) : padding.Lockstep engine where
  like := Correspondence.likeness_alike rfl engine
  error _ _ code argument := .source code argument _ _
  script entry hentry handler hparse :=
    Correspondence.sameHandler_standard (Correspondence.likeness_alike rfl engine)
      (hscripts entry hentry handler hparse)
  tight h _ := h
  outward h := h
  seen _ := trivial
  skipSpace := by
    rintro depth bound s s' ⟨prev, named, h⟩
    exact h.skipSpace.aligned
  terminator _ h := by
    obtain ⟨named, h⟩ := exists_flush h
    exact atTerminator_padded engine.dictionary _ h
  halted _ h _ := h.aligned
  pattern _ h := by
    obtain ⟨named, h⟩ := exists_flush h
    exact h.matchTokens _
  cell := trivial
  row := trivial
  close _ _ _ := trivial
  groupEnd h := by
    obtain ⟨named, h⟩ := exists_flush h
    exact h.matchTokens _
  start h := by
    obtain ⟨named, h⟩ := exists_flush h
    cases h with
    | cons h => exact ⟨_, _, rfl, Or.inl rfl⟩
  candidates kinds h := by
    obtain ⟨named, h⟩ := exists_flush h
    cases h with
    | cons hbehind =>
      have hflush : Flush named (_ :: _) (_ :: _) := .cons hbehind
      refine (engine.dictionary.candidates_rel (R := Aligned)
        fun reading _ _ => hflush.matchTokens _).imp ?_
      rintro found found' ⟨hentry, hafter⟩
      exact ⟨hentry ▸ Entry.Twin.refl found.entry, hafter⟩
  next h _ := by
    obtain ⟨-, named, h⟩ := exists_padded h
    exact ⟨0, h.aligned⟩
  group h := by
    obtain ⟨-, named, h⟩ := exists_padded h
    exact h.aligned
  numeral h hdigit := by
    obtain ⟨named, h⟩ := exists_flush h
    obtain ⟨hvalue, hafter⟩ := h.numeral hdigit
    exact ⟨hvalue, 0, hafter⟩
  arguments h := by
    obtain ⟨-, named, h⟩ := exists_padded h
    exact ⟨h.nextIs_groupStart rfl, 0, h.skipGroups rfl⟩
  left h _ := by
    obtain ⟨-, named, h⟩ := exists_padded h
    obtain ⟨prev, inside, hinside⟩ := h.skipDelimiter
    exact ⟨⟨0, prev, inside, hinside⟩, 0, hinside.skipLeft 1⟩
  blocks _ _ := blocks_padding
  right h _ := by
    obtain ⟨-, named, h⟩ := exists_padded h
    exact h.skipDelimiter
  ends h hend := by
    obtain ⟨-, named, h⟩ := exists_padded h
    rw [named_of_isCommand named (Or.inr hend)] at h
    exact h.groupText.2
  drop h _ := by
    obtain ⟨-, named, h⟩ := exists_padded h
    exact h.aligned
  pending _ _ h _ hnot _ _ := absurd h.aligned hnot

/-- **Blanks say nothing.**  For every accepted dictionary whose scripts are the standard ones,
    whatever the options and the known symbols and functions, and for all tokens: with more blanks
    between them, except inside numerals, in front of arguments and inside the names of blocks, they
    are read as the same expression but for the sources that its errors show. -/
theorem parseTokens_padded {entries : List (Entry Unit)}
    (hentries : Dictionary.ofEntries entries = .ok engine.dictionary)
    (hscripts : ∀ entry ∈ entries, ∀ handler, entry.parse = .custom handler →
      handler ∈ Standard.scripts)
    (h : Padded none false s s') :
    (engine.parseTokens s').withoutSources = (engine.parseTokens s).withoutSources := by
  have haccepted := Engine.accepted_of_ofEntries hentries
  have hstandard : ∀ entry ∈ engine.dictionary.entries, ∀ handler,
      entry.parse = .custom handler → handler ∈ Standard.scripts := by
    rw [(Dictionary.indexed_of_ofEntries hentries).entries_eq]
    exact hscripts
  have hlike : Alike (engine.parseTokens s) (engine.parseTokens s') :=
    (lockstep_padding hstandard).parseTokens whole_padding haccepted h.aligned
  exact hlike.withoutSources_eq.symm

/-- In `2(x` the product stays one with a blank between its factors, and the error for the open
    group shows the blanks in its source. -/
theorem parseTokens_padded_product :
    Padded none false [.char '2', .char '(', .char 'x']
      [.space, .char '2', .space, .char '(', .space, .char 'x', .space] ∧
    (Engine.standard.parseTokens
      [.space, .char '2', .space, .char '(', .space, .char 'x', .space]).withoutSources =
      (Engine.standard.parseTokens [.char '2', .char '(', .char 'x']).withoutSources := by
  have hpadded : Padded none false [.char '2', .char '(', .char 'x']
      [.space, .char '2', .space, .char '(', .space, .char 'x', .space] :=
    .blank ⟨rfl, by decide, by decide⟩ <| .keep _ <| .blank ⟨rfl, by decide, by decide⟩ <|
      .keep _ <| .blank ⟨rfl, by decide, by decide⟩ <| .keep _ <|
      .blank ⟨rfl, by decide, by decide⟩ .nil
  exact ⟨hpadded, parseTokens_padded Engine.standard_accepted scripts_standardEntries hpadded⟩

end Reader

end Formula
