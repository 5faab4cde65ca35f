import Formula.Proofs.Token.Canonical
import Mathlib.Data.List.Infix
import Mathlib.Data.List.Induction

/-!
  **The source of tokens.**

  The source of the tokens of a text is the text with a blank where `append` puts one.  Whether it
  does so depends on the characters written so far and not on where the tokens end: letters at the
  end of a text count as a command as soon as a backslash stands in front of them.  That is right
  for a command of letters, which no letter follows.  It is wrong behind an escaped backslash, which
  takes no letters: behind the first letter after it, the next one is moved away.
-/

namespace Formula.Latex

open Token (scan isSourceBlank Canonical Formed Lexical)

/-! ### Pieces without a blank between them -/

/-- Somewhere in the pieces written so far a command would take in the first letter of a piece. -/
def Fuses (text : List Char) (pieces : List (List Char)) : Prop :=
  ∃ before piece after, pieces = before ++ piece :: after ∧ startsWithLetter piece = true ∧
    endsWithCommand (text ++ before.flatten) = true

theorem length_append_le (text piece : List Char) :
    text.length + piece.length ≤ (append text piece).length := by
  rw [append]
  split <;> simp

theorem length_foldl_append_le (pieces : List (List Char)) (text : List Char) :
    text.length + pieces.flatten.length ≤ (pieces.foldl append text).length := by
  induction pieces generalizing text with
  | nil => simp
  | cons piece pieces ih =>
    have hpiece := length_append_le text piece
    have hrest := ih (append text piece)
    rw [List.foldl_cons, List.flatten_cons, List.length_append]
    omega

theorem fuses_cons {text piece : List Char} {pieces : List (List Char)} :
    Fuses text (piece :: pieces) ↔
      (startsWithLetter piece && endsWithCommand text) = true ∨ Fuses (text ++ piece) pieces := by
  constructor
  · rintro ⟨before, found, after, heq, hletter, hcommand⟩
    cases before with
    | nil =>
      obtain ⟨rfl, rfl⟩ := List.cons.inj heq
      rw [List.flatten_nil, List.append_nil] at hcommand
      exact Or.inl (by rw [hletter, hcommand]; rfl)
    | cons first before =>
      obtain ⟨rfl, rfl⟩ := List.cons.inj heq
      rw [List.flatten_cons, ← List.append_assoc] at hcommand
      exact Or.inr ⟨before, found, after, rfl, hletter, hcommand⟩
  · rintro (hfuses | ⟨before, found, after, rfl, hletter, hcommand⟩)
    · obtain ⟨hletter, hcommand⟩ := Bool.and_eq_true_iff.mp hfuses
      exact ⟨[], piece, pieces, rfl, hletter, by simpa using hcommand⟩
    · exact ⟨piece :: before, found, after, rfl, hletter, by simpa using hcommand⟩

/-- Pieces are written one right after the other exactly where none fuses with those before it. -/
theorem foldl_append_eq_iff {pieces : List (List Char)} {text : List Char} :
    pieces.foldl append text = text ++ pieces.flatten ↔ ¬ Fuses text pieces := by
  induction pieces generalizing text with
  | nil => simp [Fuses]
  | cons piece pieces ih =>
    rw [List.foldl_cons, List.flatten_cons, fuses_cons, not_or]
    cases hfuses : startsWithLetter piece && endsWithCommand text with
    | false =>
      have happend : append text piece = text ++ piece := by simp [append, hfuses]
      rw [happend, ← List.append_assoc, ih]
      simp
    | true =>
      -- a blank more than the pieces, and nothing behind it takes one away
      have happend : append text piece = text ++ ' ' :: piece := by simp [append, hfuses]
      have hlength := length_foldl_append_le pieces (append text piece)
      refine iff_of_false (fun heq => ?_) (fun h => h.1 rfl)
      rw [heq, happend] at hlength
      simp only [List.length_append, List.length_cons] at hlength
      omega

/-! ### Texts that their tokens keep -/

/-- A text without comments, whose only blanks are single spaces. -/
structure PlainText (text : List Char) : Prop where
  chars : ∀ c ∈ text, c ∉ ['%', '\t', '\r', '\n']
  spaces : ¬ [' ', ' '] <:+: text

namespace PlainText

variable {text : List Char}

theorem of_suffix {rest : List Char} (h : PlainText text) (hrest : rest <:+ text) :
    PlainText rest :=
  ⟨fun c hc => h.chars c (hrest.mem hc), fun hspaces => h.spaces (hspaces.trans hrest.isInfix)⟩

theorem comment (h : PlainText text) : '%' ∉ text := fun hc => h.chars '%' hc (by simp)

theorem eq_space (h : PlainText text) {c : Char} (hc : c ∈ text) (hblank : isSourceBlank c = true) :
    c = ' ' := by
  have hnot := h.chars c hc
  simp only [List.mem_cons, List.not_mem_nil, or_false, not_or] at hnot
  simp only [isSourceBlank, Bool.or_eq_true, beq_iff_eq] at hblank
  tauto

/-- A blank stands alone. -/
theorem dropWhile_blank {c : Char} {rest : List Char} (h : PlainText (c :: rest))
    (hblank : isSourceBlank c = true) : rest.dropWhile isSourceBlank = rest := by
  cases rest with
  | nil => rfl
  | cons d rest =>
    by_cases hd : isSourceBlank d = true
    · have hc := h.eq_space (by simp) hblank
      have hd := h.eq_space (by simp) hd
      exact absurd (List.IsPrefix.isInfix (by simp [hc, hd])) h.spaces
    · rw [List.dropWhile_cons_of_neg hd]

/-- The tokens of a plain text keep all its characters. -/
theorem flatMap_toList_scan (h : PlainText text) : (scan text).flatMap Token.toList = text := by
  revert h
  fun_induction scan text with
  | case1 => exact fun _ => rfl
  | case2 rest ih => exact fun h => absurd List.mem_cons_self h.comment
  | case3 c rest hpercent hblank ih =>
    intro h
    have hrest := h.of_suffix (List.suffix_cons c rest)
    rw [h.dropWhile_blank hblank] at ih ⊢
    rw [List.flatMap_cons, ih hrest, h.eq_space List.mem_cons_self hblank]
    rfl
  | case4 hpercent hblank => exact fun _ => rfl
  | case5 d more hd hpercent hblank ih =>
    intro h
    have hsuffix : more.dropWhile Char.isAlpha <:+ '\\' :: d :: more :=
      (List.dropWhile_suffix _).trans ((List.suffix_cons d more).trans (List.suffix_cons _ _))
    rw [List.flatMap_cons, ih (h.of_suffix hsuffix), Token.toList, String.toList_ofList,
      List.cons_append, List.cons_append, List.takeWhile_append_dropWhile]
  | case6 d more hd hpercent hblank ih =>
    intro h
    have hsuffix : more <:+ '\\' :: d :: more :=
      (List.suffix_cons d more).trans (List.suffix_cons _ _)
    rw [List.flatMap_cons, ih (h.of_suffix hsuffix), Token.toList, String.toList_ofList]
    rfl
  | case7 rest hpercent hblank hcommand ih =>
    intro h
    rw [List.flatMap_cons, ih (h.of_suffix (List.suffix_cons _ rest))]
    rfl
  | case8 rest hpercent hblank hcommand hopen ih =>
    intro h
    rw [List.flatMap_cons, ih (h.of_suffix (List.suffix_cons _ rest))]
    rfl
  | case9 c rest hpercent hblank hcommand hopen hclose ih =>
    intro h
    rw [List.flatMap_cons, ih (h.of_suffix (List.suffix_cons c rest))]
    rfl

end PlainText

/-! ### Letters behind an escaped backslash -/

/-- The letters at the end of the text, if any, stand right behind a backslash. -/
def lettersEscaped (text : List Char) : Bool :=
  (text.reverse.dropWhile Char.isAlpha).head? == some '\\'

theorem lettersEscaped_letter {c : Char} (h : c.isAlpha = true) (text : List Char) :
    lettersEscaped (text ++ [c]) = lettersEscaped text := by
  simp [lettersEscaped, h]

theorem lettersEscaped_other {c : Char} (h : c.isAlpha = false) (text : List Char) :
    lettersEscaped (text ++ [c]) = (c == '\\') := by
  simp [lettersEscaped, h]

variable {t u : Token} {tokens before : List Token}

theorem exists_of_isLetter (h : t.isLetter = true) : ∃ c, t = .char c ∧ c.isAlpha = true := by
  cases t with
  | char c => exact ⟨c, rfl, h⟩
  | _ => cases h

/-- In front of a letter, only an escaped backslash lets the text end in a backslash and letters. -/
theorem letters_of_escaped (h : Canonical (before ++ [t])) (ht : t.isLetter = true)
    (hescaped : lettersEscaped (before.flatMap Token.toList) = true) :
    ∃ front letters, before = front ++ .command "\\\\" :: letters ∧
      ∀ u ∈ letters, u.isLetter = true := by
  induction before using List.reverseRecOn generalizing t with
  | nil => cases hescaped
  | append_singleton front u ih =>
    have hu : u.Formed := h.formed u (by simp)
    have hfront : Canonical (front ++ [u]) := h.left_of_append
    rw [List.append_assoc, List.singleton_append] at h
    have hlone : u ≠ .char '\\' := (List.isChain_cons_cons.mp h.lone.right_of_append).1
    have hapart : u.IsWord → False := by
      intro hword
      have hnot := (List.isChain_cons_cons.mp h.apart.right_of_append).1.2 hword
      rw [ht] at hnot
      cases hnot
    rw [List.flatMap_append, List.flatMap_singleton] at hescaped
    cases hu with
    | @word letters ne alpha => exact (hapart ⟨letters, ne, alpha, rfl⟩).elim
    | sign c =>
      cases hc : c.isAlpha with
      | true => exact (hapart ⟨[c], List.cons_ne_nil c [], by simpa using hc, rfl⟩).elim
      | false =>
        have htext : front.flatMap Token.toList ++
            Token.toList (.command (String.ofList ['\\', c])) =
              (front.flatMap Token.toList ++ ['\\']) ++ [c] := by
          simp [Token.toList]
        rw [htext, lettersEscaped_other hc, beq_iff_eq] at hescaped
        subst hescaped
        exact ⟨front, [], rfl, by simp⟩
    | groupStart =>
      rw [Token.toList, lettersEscaped_other (by decide)] at hescaped
      cases hescaped
    | groupEnd =>
      rw [Token.toList, lettersEscaped_other (by decide)] at hescaped
      cases hescaped
    | space =>
      rw [Token.toList, lettersEscaped_other (by decide)] at hescaped
      cases hescaped
    | @char c plain =>
      rw [Token.toList] at hescaped
      cases hc : c.isAlpha with
      | true =>
        rw [lettersEscaped_letter hc] at hescaped
        obtain ⟨front', letters, rfl, hletters⟩ := ih hfront hc hescaped
        refine ⟨front', letters ++ [.char c], by simp, ?_⟩
        intro u hu
        rcases List.mem_append.mp hu with hu | hu
        · exact hletters u hu
        · rw [List.mem_singleton.mp hu]
          exact hc
      | false =>
        rw [lettersEscaped_other hc, beq_iff_eq] at hescaped
        exact absurd (congrArg Token.char hescaped) hlone

/-- An escaped backslash with two letters right behind it. -/
def EscapedLetters (tokens : List Token) : Prop :=
  ∃ a b : Char, a.isAlpha = true ∧ b.isAlpha = true ∧
    [.command "\\\\", .char a, .char b] <:+: tokens

theorem escapedLetters_of_fuses (h : Canonical tokens)
    (hfuses : Fuses [] (tokens.map Token.toList)) : EscapedLetters tokens := by
  obtain ⟨before', piece, after', heq, hletter, hcommand⟩ := hfuses
  obtain ⟨before, rest, rfl, rfl, hrest⟩ := List.map_eq_append_iff.mp heq
  obtain ⟨t, after, rfl, rfl, rfl⟩ := List.map_eq_cons_iff.mp hrest
  have ht : t.isLetter = true := by
    have hformed : t.Formed := h.formed t (by simp)
    rw [← (hformed.head?_append []).1, List.append_nil]
    exact hletter
  rw [List.nil_append, ← List.flatMap_def] at hcommand
  obtain ⟨hlast, hescaped⟩ := Bool.and_eq_true_iff.mp hcommand
  have hfront : Canonical (before ++ [t]) := by
    rw [← List.singleton_append, ← List.append_assoc] at h
    exact h.left_of_append
  obtain ⟨front, letters, rfl, hletters⟩ := letters_of_escaped hfront ht hescaped
  cases letters with
  | nil => simp [Token.toList] at hlast
  | cons u letters =>
    obtain ⟨a, rfl, ha⟩ := exists_of_isLetter (hletters u List.mem_cons_self)
    cases letters with
    | nil =>
      obtain ⟨b, rfl, hb⟩ := exists_of_isLetter ht
      exact ⟨a, b, ha, hb, front, after, by simp⟩
    | cons v letters =>
      obtain ⟨b, rfl, hb⟩ := exists_of_isLetter (hletters v (by simp))
      exact ⟨a, b, ha, hb, front, letters ++ t :: after, by simp⟩

theorem EscapedLetters.fuses (h : EscapedLetters tokens) :
    Fuses [] (tokens.map Token.toList) := by
  obtain ⟨a, b, ha, hb, front, after, rfl⟩ := h
  refine ⟨(front ++ [Token.command "\\\\", .char a]).map Token.toList, [b],
    after.map Token.toList, by simp [Token.toList], by simp [startsWithLetter, hb], ?_⟩
  have htext : [] ++ ((front ++ [Token.command "\\\\", .char a]).map Token.toList).flatten =
      (front.map Token.toList).flatten ++ ['\\', '\\', a] := by
    simp [Token.toList]
  rw [htext, endsWithCommand_append _ ⟨'\\', by simp, by decide⟩]
  simp [endsWithCommand, ha]

/-- **The source of the tokens of a plain text is the text, unless two letters stand right behind
    an escaped backslash.** -/
theorem ofTokens_tokenize_iff {latex : String} (h : PlainText latex.toList) :
    ofTokens (tokenize latex) = latex ↔ ¬ EscapedLetters (tokenize latex) := by
  have hcanonical : Canonical (tokenize latex) := Token.canonical_scan h.comment
  have htext : ((tokenize latex).map Token.toList).flatten = latex.toList := by
    rw [← List.flatMap_def]
    exact h.flatMap_toList_scan
  have hfuses : Fuses [] ((tokenize latex).map Token.toList) ↔ EscapedLetters (tokenize latex) :=
    ⟨escapedLetters_of_fuses hcanonical, EscapedLetters.fuses⟩
  rw [← hfuses, ← foldl_append_eq_iff, htext, List.nil_append, ofTokens, joinChars,
    ← String.toList_inj, String.toList_ofList]

/-- A blank or a single letter may stand behind an escaped backslash. -/
theorem ofTokens_tokenize_rows :
    PlainText "\\alpha b \\\\ c\\\\d".toList ∧
      ofTokens (tokenize "\\alpha b \\\\ c\\\\d") = "\\alpha b \\\\ c\\\\d" := by
  have hplain : PlainText "\\alpha b \\\\ c\\\\d".toList := ⟨by simp, by decide⟩
  refine ⟨hplain, (ofTokens_tokenize_iff hplain).mpr ?_⟩
  rintro ⟨a, b, -, -, hinfix⟩
  have hscan : tokenize "\\alpha b \\\\ c\\\\d" =
      [.command "\\alpha", .space, .char 'b', .space, .command "\\\\", .space, .char 'c',
        .command "\\\\", .char 'd'] := by
    simp [tokenize, scan, isSourceBlank]
  rw [hscan] at hinfix
  simp [List.infix_cons_iff] at hinfix

/-- Behind an escaped backslash a letter is moved away from the one in front of it. -/
theorem ofTokens_tokenize_escape :
    PlainText "\\\\ab".toList ∧ ofTokens (tokenize "\\\\ab") = "\\\\a b" ∧
      ofTokens (tokenize "\\\\ab") ≠ "\\\\ab" := by
  have hscan : tokenize "\\\\ab" = [.command "\\\\", .char 'a', .char 'b'] := by
    simp [tokenize, scan, isSourceBlank]
  rw [hscan]
  exact ⟨⟨by simp, by decide⟩, by decide, by decide⟩

end Formula.Latex
