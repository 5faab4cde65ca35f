import Formula.Proofs.Latex.Leaves

/-!
  **Atoms.**

  An atom is a text that is read as one expression wherever it stands, as if it were a letter: an
  operator next to it takes all of it or nothing.  What is said of an atom is said of the text that
  follows it and not of tokens, because the tokens of two pieces are not always those of the pieces
  one after the other: blanks that come together are one token, and a command takes in a letter.

  What is written between two triggers is an atom again if its body is read up to the closing one.
-/

namespace Formula

open Latex Reader
open Token (scan isSourceBlank)

namespace Latex

/-! ### Texts behind an atom -/

/-- Nothing follows, or a blank or a command: no letter, which a command would take in, and nothing
    with which a number goes on. -/
def Clear (after : List Char) : Prop := ∀ c, after.head? = some c → c = ' ' ∨ c = '\\'

theorem clear_nil : Clear [] := by
  rintro c ⟨⟩

theorem clear_blank (after : List Char) : Clear (' ' :: after) := by
  rintro c ⟨rfl⟩
  exact Or.inl rfl

theorem clear_command (after : List Char) : Clear ('\\' :: after) := by
  rintro c ⟨rfl⟩
  exact Or.inr rfl

theorem Clear.letter {after : List Char} (h : Clear after) : startsWithLetter after = false := by
  cases after with
  | nil => rfl
  | cons c after => rcases h c rfl with rfl | rfl <;> rfl

theorem Clear.apart {after : List Char} (h : Clear after) : Apart (scan after) := by
  cases after with
  | nil =>
    rw [scan_nil]
    exact apart_nil
  | cons c after =>
    intro t ht
    rcases h c rfl with rfl | rfl
    · rw [scan_blank] at ht
      cases ht
      simp [Token.isDigit]
    · rw [scan.eq_def] at ht
      simp only [if_neg (show ('\\' : Char) ≠ '%' by decide), if_true,
        if_neg (show ¬ isSourceBlank '\\' = true by decide)] at ht
      split at ht
      · cases ht
        exact ⟨by decide, by decide⟩
      · split at ht <;> cases ht <;> simp [Token.isDigit]

/-! ### Blanks -/

/-- One blank more in front is passed as well. -/
theorem skipSpace_scan_blank (text : List Char) :
    skipSpace (scan (' ' :: text)) = skipSpace (scan text) := by
  have hspace : ∀ rest, skipSpace (.space :: rest) = skipSpace rest := fun rest => rfl
  rw [scan_blank, hspace]
  cases text with
  | nil => rw [List.dropWhile_nil]
  | cons c text =>
    by_cases hc : isSourceBlank c = true
    · have hpercent : c ≠ '%' := by
        rintro rfl
        cases hc
      rw [List.dropWhile_cons_of_pos hc, scan.eq_def (c :: text)]
      simp only [hpercent, hc, if_false, if_true, hspace]
    · rw [List.dropWhile_cons_of_neg hc]

/-! ### Words -/

/-- A command in front of a word. -/
theorem Word.after_command {letters text : List Char} {tokens : List Token} (hne : letters ≠ [])
    (hletters : ∀ c ∈ letters, c.isAlpha = true) (h : Word text tokens) :
    Word ('\\' :: letters ++ text)
      (.command (String.ofList ('\\' :: letters)) :: tokens) where
  start := rfl
  solid := by
    obtain ⟨c, hc, hletter⟩ := h.solid
    exact ⟨c, List.mem_append_right _ hc, hletter⟩
  scan_eq after hafter := by
    have htext : text ≠ [] := by
      rintro rfl
      obtain ⟨c, hc, -⟩ := h.solid
      cases hc
    have hstart : startsWithLetter (text ++ after) = false := by
      rw [startsWithLetter, head?_append_of_ne_nil htext]
      exact h.start
    rw [endsWithCommand_append _ h.solid] at hafter
    rw [List.append_assoc, scan_command hne hletters hstart, h.scan_eq after hafter]
    rfl

/-- Only the start of what follows counts for the blank behind a word. -/
theorem gap_append (word : List Char) {operand : List Char} (hne : operand ≠ [])
    (more : List Char) : gap word (operand ++ more) = gap word operand := by
  rw [gap, gap, startsWithLetter, startsWithLetter, head?_append_of_ne_nil hne]

end Latex

variable {engine : Engine Unit}

theorem expression_blank (h : engine.Accepted) (stop : Terminator) (text : List Char) :
    expression engine engine.host stop (scan (' ' :: text)) =
      expression engine engine.host stop (scan text) := by
  rw [← expression_skipSpace h, skipSpace_scan_blank, expression_skipSpace h]

/-- The blank that is put behind a command does not count. -/
theorem expression_gap (h : engine.Accepted) (stop : Terminator) (word operand text : List Char) :
    expression engine engine.host stop (scan (gap word operand ++ text)) =
      expression engine engine.host stop (scan text) := by
  unfold gap
  split
  · exact expression_blank h stop text
  · rfl

/-- With the blank behind it a word keeps its tokens. -/
theorem Latex.scan_word_gap {word operand : List Char} {tokens : List Token}
    (hword : Word word tokens) (hne : operand ≠ []) (text : List Char) :
    scan (word ++ (gap word operand ++ (operand ++ text))) =
      tokens ++ scan (gap word operand ++ (operand ++ text)) := by
  apply hword.scan_eq
  intro hcommand
  unfold gap
  split
  · rfl
  · rename_i hgap
    rw [hcommand, Bool.and_true, Bool.not_eq_true] at hgap
    rw [List.nil_append, startsWithLetter, head?_append_of_ne_nil hne]
    exact hgap

/-! ### Where every expression ends -/

/-- Blanks apart, every expression ends where the text stands. -/
structure Stops (engine : Engine Unit) (after : List Char) : Prop where
  clear : Clear after
  ends : Ends engine (skipSpace (scan after))

namespace Stops

variable {after : List Char}

theorem halts (h : Stops engine after) (bound : Nat) :
    Halts engine bound (skipSpace (scan after)) := ⟨skipSpace_skipSpace _, Or.inl h.ends⟩

/-- There is no expression here. -/
theorem nothing (h : Stops engine after) (haccepted : engine.Accepted) (stop : Terminator) :
    expression engine engine.host stop (scan after) = pure (none, skipSpace (scan after)) :=
  expression_of_ends haccepted stop h.ends

end Stops

/-! ### Atoms -/

/-- The text is read as the expression wherever it stands. -/
structure Atom (engine : Engine Unit) (text : List Char) (e : Expr) : Prop where
  ne : text ≠ []
  reads : ∀ {stop : Terminator}, Proper engine stop → ∀ {after : List Char}, Clear after →
    expression engine engine.host stop (scan (text ++ after)) =
      completed engine stop e (scan after)

/-- An expression without an operator at its root is an atom. -/
theorem ReadAs.atom (h : engine.Accepted) {e r : Expr} (he : ReadAs engine e r)
    (hroot : rootOperator? engine.dictionary e = none) :
    Atom engine (engine.latex e).toList r := by
  obtain ⟨φ, hφ⟩ := he
  rw [hroot] at hφ
  refine ⟨hφ.ne, ?_⟩
  intro stop hstop after hafter
  have hleft : ∀ p ∈ φ.leftEdge, stop.minPrec ≤ p := by
    intro p hp
    obtain ⟨o, ho, -⟩ := hφ.left p hp
    cases ho
  have hright : ∀ b ∈ φ.rightEdge, Halts engine b (scan after) := by
    intro b hb
    obtain ⟨o, ho, -⟩ := hφ.right b hb
    cases ho
  rw [hφ.scans after, read_phrase h hφ.grouped hstop hleft hright hafter.apart, hφ.value_eq]

namespace Atom

variable {text : List Char} {e : Expr}

/-- Where nothing takes the atom as its left operand it is all that is read. -/
theorem read (ha : Atom engine text e) (h : engine.Accepted) {stop : Terminator}
    (hstop : Proper engine stop) {after : List Char} (hafter : Clear after)
    (hhalts : Halts engine stop.minPrec (skipSpace (scan after))) :
    expression engine engine.host stop (scan (text ++ after)) =
      pure (some e, skipSpace (scan after)) := by
  rw [ha.reads hstop hafter, completed, ← more_skipSpace h, more_of_halts hhalts]
  rfl

theorem parse_eq {latex : String} (ha : Atom engine latex.toList e) (h : engine.Accepted) :
    engine.parse latex = e := by
  have hnil : skipSpace (scan []) = [] := by
    rw [scan_nil]
    rfl
  have hread := ha.read h proper_default clear_nil (hnil ▸ halts_nil 0)
  rw [List.append_nil, hnil] at hread
  exact parseTokens_of_expression h hread

end Atom

/-! ### Between two triggers -/

/-- The body is read up to the text of the closing trigger. -/
def BodyReads (engine : Engine Unit) (text closing : List Char) (close : Trigger) (body : Expr) :
    Prop :=
  ∀ {after : List Char}, Clear after →
    expression engine engine.host { minPrec := 0, close := some close.tokens }
      (scan (text ++ (closing ++ after))) = pure (some body, close.tokens ++ scan after)

/-- What is written between two triggers is an atom. -/
theorem Atom.around (h : engine.Accepted) {entry : Entry Unit} {trigger close : Trigger}
    (hrule : entry.Ruled .matchfix) (hclose : entry.close = some close)
    (hcloses : Closes engine close.tokens)
    (honly : ∀ rest, Only engine [.symbol, .prefixOp, .matchfix] entry trigger rest)
    {opening closing text : List Char} {body : Expr} (hopening : Word opening trigger.tokens)
    (hne : text ≠ []) (hbody : BodyReads engine text closing close body) :
    Atom engine (opening ++ gap opening text ++ text ++ closing)
      (engine.call entry.headName (contents entry.headName body)) := by
  refine ⟨by simp [hne], ?_⟩
  intro stop hstop after hafter
  have htext : opening ++ gap opening text ++ text ++ closing ++ after =
      opening ++ (gap opening text ++ (text ++ (closing ++ after))) := by
    simp only [List.append_assoc]
  have hfirst := honly (scan (gap opening text ++ (text ++ (closing ++ after))))
  obtain ⟨t, tail, htokens, hopens, -, -⟩ := hfirst.opens
  obtain ⟨consumed, hfound⟩ := hfirst.found
  have hinside := hbody hafter
  rw [← expression_gap h _ opening text] at hinside
  have hend : matchTokens close.tokens (skipSpace (close.tokens ++ scan after)) =
      some (scan after) := by
    rw [(hcloses.halts 0 (scan after)).1]
    exact matchTokens_append (Trigger.not_isSpace close) (scan after)
  rw [htext, scan_word_gap hopening hne]
  apply expression_of_primary h
  rw [htokens, List.cons_append] at hfound ⊢
  exact primary_around hstop hopens hfound hrule.kind_eq hrule.rule hrule.head_eq hclose hinside
    hend

end Formula
