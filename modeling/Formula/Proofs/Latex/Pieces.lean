import Formula.Latex.Join
import Formula.Token.Lexer
import Mathlib.Data.List.TakeWhile

/-!
  **Pieces of LaTeX and their tokens.**

  A text `Scans` as some tokens if it does so whatever follows it.  The text of an operator need
  not: a command takes in a letter written right after it.  Such a text is a `Word`, and the blank
  that `append` puts behind it keeps its tokens apart from those of the next piece.
-/

namespace Formula.Latex

open Token (scan isSourceBlank)

/-! ### Texts that stand for themselves -/

/-- The text has these tokens, whatever follows it. -/
def Scans (text : List Char) (tokens : List Token) : Prop :=
  ∀ after, scan (text ++ after) = tokens ++ scan after

theorem scans_nil : Scans [] [] := by
  intro after
  rfl

theorem Scans.append {text text' : List Char} {tokens tokens' : List Token}
    (h : Scans text tokens) (h' : Scans text' tokens') :
    Scans (text ++ text') (tokens ++ tokens') := by
  intro after
  rw [List.append_assoc, h, h', List.append_assoc]

theorem scan_nil : scan [] = [] := by simp [scan]

theorem Scans.tokenize_eq {text : String} {tokens : List Token} (h : Scans text.toList tokens) :
    tokenize text = tokens := by
  have hscan := h []
  rw [List.append_nil, scan_nil, List.append_nil] at hscan
  exact hscan

/-- A character without a meaning of its own. -/
structure Ordinary (c : Char) : Prop where
  percent : c ≠ '%'
  blank : isSourceBlank c = false
  backslash : c ≠ '\\'
  openBrace : c ≠ '\x7b'
  closeBrace : c ≠ '\x7d'

theorem scans_char {c : Char} (h : Ordinary c) : Scans [c] [.char c] := by
  intro after
  rw [List.singleton_append, scan.eq_def]
  simp only [h.percent, h.blank, h.backslash, h.openBrace, h.closeBrace, if_false,
    Bool.false_eq_true]
  rfl

theorem scans_chars {text : List Char} (h : ∀ c ∈ text, Ordinary c) :
    Scans text (text.map .char) := by
  induction text with
  | nil => exact scans_nil
  | cons c text ih =>
    have htail := ih fun d hd => h d (List.mem_cons_of_mem c hd)
    exact (scans_char (h c List.mem_cons_self)).append htail

/-- A kind of characters that has none with a meaning in it. -/
theorem ordinary_of_kind {kind : Char → Bool}
    (hkind : ['%', ' ', '\t', '\n', '\r', '\\', '\x7b', '\x7d'].any kind = false) {c : Char}
    (h : kind c = true) : Ordinary c := by
  have hne : ∀ d ∈ ['%', ' ', '\t', '\n', '\r', '\\', '\x7b', '\x7d'], c ≠ d := by
    rintro d hd rfl
    exact List.any_eq_false.mp hkind c hd h
  simp only [List.forall_mem_cons, List.not_mem_nil, false_implies, implies_true, and_true] at hne
  obtain ⟨hpercent, hspace, htab, hline, hreturn, hslash, hopen, hclose⟩ := hne
  exact ⟨hpercent, by simp [isSourceBlank, hspace, htab, hline, hreturn], hslash, hopen, hclose⟩

theorem ordinary_of_isAlpha {c : Char} (h : c.isAlpha = true) : Ordinary c :=
  ordinary_of_kind (by decide) h

theorem ordinary_of_isDigit {c : Char} (h : c.isDigit = true) : Ordinary c :=
  ordinary_of_kind (by decide) h

theorem scans_openBrace : Scans ['\x7b'] [.groupStart] := by
  intro after
  rw [List.singleton_append, scan.eq_def]
  simp [isSourceBlank]

theorem scans_closeBrace : Scans ['\x7d'] [.groupEnd] := by
  intro after
  rw [List.singleton_append, scan.eq_def]
  simp [isSourceBlank]

/-! ### Commands -/

/-- A backslash takes one character that is no letter, of whatever kind. -/
theorem scans_sign {c : Char} (h : c.isAlpha = false) :
    Scans ['\\', c] [.command (String.ofList ['\\', c])] := by
  intro after
  rw [List.cons_append, List.singleton_append, scan, if_neg (by decide), if_neg (by decide),
    if_pos rfl]
  simp only [h, Bool.false_eq_true, if_false]
  rfl

/-- A command of letters ends before anything but a letter. -/
theorem scan_command {letters after : List Char} (hne : letters ≠ [])
    (hletters : ∀ c ∈ letters, c.isAlpha = true) (hafter : startsWithLetter after = false) :
    scan ('\\' :: letters ++ after) = .command (String.ofList ('\\' :: letters)) :: scan after := by
  cases letters with
  | nil => exact absurd rfl hne
  | cons d more =>
    have hd : d.isAlpha = true := hletters d List.mem_cons_self
    have hmore : ∀ c ∈ more, c.isAlpha = true := fun c hc => hletters c (List.mem_cons_of_mem d hc)
    have hstop : after.takeWhile Char.isAlpha = [] ∧ after.dropWhile Char.isAlpha = after := by
      cases after with
      | nil => exact ⟨rfl, rfl⟩
      | cons c after =>
        have hc : c.isAlpha = false := hafter
        simp [hc]
    have htake : (more ++ after).takeWhile Char.isAlpha = more := by
      rw [List.takeWhile_append_of_pos hmore, hstop.1, List.append_nil]
    have hdrop : (more ++ after).dropWhile Char.isAlpha = after := by
      rw [List.dropWhile_append_of_pos hmore, hstop.2]
    rw [List.cons_append, List.cons_append, scan, if_neg (by decide), if_neg (by decide),
      if_pos rfl]
    simp only [hd, if_true, htake, hdrop]

theorem scan_blank (text : List Char) :
    scan (' ' :: text) = .space :: scan (text.dropWhile isSourceBlank) := by
  have hblank : isSourceBlank ' ' = true := by decide
  rw [scan.eq_def]
  simp only [hblank, if_true]
  rfl

/-- A blank ends before anything but a blank. -/
theorem scan_space {after : List Char} (h : after.head?.any isSourceBlank = false) :
    scan (' ' :: after) = .space :: scan after := by
  rw [scan_blank]
  cases after with
  | nil => rfl
  | cons c after =>
    have hc : isSourceBlank c = false := h
    rw [List.dropWhile_cons_of_neg (by simp [hc])]

theorem scan_space_letter {after : List Char} (h : startsWithLetter after = true) :
    scan (' ' :: after) = .space :: scan after := by
  cases after with
  | nil => cases h
  | cons c after =>
    have hc : c.isAlpha = true := h
    exact scan_space (ordinary_of_isAlpha hc).blank

/-! ### Texts of operators -/

/-- The text of an operator: it does not start with a letter, it is not made of letters only, and
    it has its tokens unless it is a command with a letter right behind it. -/
structure Word (text : List Char) (tokens : List Token) : Prop where
  start : startsWithLetter text = false
  solid : ∃ c ∈ text, Char.isAlpha c = false
  scan_eq : ∀ after, (endsWithCommand text = true → startsWithLetter after = false) →
    scan (text ++ after) = tokens ++ scan after

theorem word_char {c : Char} (h : Ordinary c) (hletter : c.isAlpha = false) :
    Word [c] [.char c] where
  start := by simpa [startsWithLetter] using hletter
  solid := ⟨c, by simp, hletter⟩
  scan_eq after _ := scans_char h after

theorem endsWithCommand_command {letters : List Char} (hne : letters ≠ [])
    (hletters : ∀ c ∈ letters, c.isAlpha = true) : endsWithCommand ('\\' :: letters) = true := by
  have hdrop : ('\\' :: letters).reverse.dropWhile Char.isAlpha = ['\\'] := by
    rw [List.reverse_cons, List.dropWhile_append_of_pos (by simpa using hletters)]
    rfl
  have hhead : ('\\' :: letters).reverse.head?.any Char.isAlpha = true := by
    obtain ⟨last, hlast⟩ := Option.isSome_iff_exists.mp (List.getLast?_isSome.mpr hne)
    have hmem : last ∈ letters := List.mem_of_getLast? hlast
    rw [List.head?_reverse, List.getLast?_cons, hlast]
    exact hletters last hmem
  rw [endsWithCommand, hhead, hdrop]
  rfl

theorem word_command {letters : List Char} (hne : letters ≠ [])
    (hletters : ∀ c ∈ letters, c.isAlpha = true) :
    Word ('\\' :: letters) [.command (String.ofList ('\\' :: letters))] where
  start := rfl
  solid := ⟨'\\', by simp, by decide⟩
  scan_eq after hafter := scan_command hne hletters (hafter (endsWithCommand_command hne hletters))

theorem head?_append_of_ne_nil {text : List Char} (h : text ≠ []) (after : List Char) :
    (text ++ after).head? = text.head? := by
  cases text with
  | nil => exact absurd rfl h
  | cons c text => rfl

/-- Whether a text ends in a command is seen in its last piece, if that is no run of letters. -/
theorem endsWithCommand_append (text : List Char) {word : List Char}
    (h : ∃ c ∈ word, Char.isAlpha c = false) :
    endsWithCommand (text ++ word) = endsWithCommand word := by
  obtain ⟨c, hc, hletter⟩ := h
  have hne : word.reverse ≠ [] := by
    intro hnil
    rw [List.reverse_eq_nil_iff.mp hnil] at hc
    cases hc
  have hdrop : word.reverse.dropWhile Char.isAlpha ≠ [] := by
    intro hnil
    have := List.dropWhile_eq_nil_iff.mp hnil c (List.mem_reverse.mpr hc)
    rw [hletter] at this
    cases this
  unfold endsWithCommand
  simp only [List.reverse_append, head?_append_of_ne_nil hne]
  rw [List.dropWhile_append, if_neg (by simpa [List.isEmpty_iff] using hdrop),
    head?_append_of_ne_nil hdrop]

/-- What `append` puts between an operator and its operand. -/
def gap (word operand : List Char) : List Char :=
  if startsWithLetter operand && endsWithCommand word then [' '] else []

theorem append_of_start {text piece : List Char} (h : startsWithLetter piece = false) :
    append text piece = text ++ piece := by
  rw [append, h]
  rfl

theorem append_of_not_command {text piece : List Char} (h : endsWithCommand text = false) :
    append text piece = text ++ piece := by
  rw [append, h, Bool.and_false]
  rfl

theorem nil_append (piece : List Char) : append [] piece = piece := append_of_not_command rfl

theorem append_after_word (text : List Char) {word : List Char} {tokens : List Token}
    (h : Word word tokens) (operand : List Char) :
    append (text ++ word) operand = text ++ word ++ gap word operand ++ operand := by
  rw [append, gap, endsWithCommand_append text h.solid]
  split <;> simp

/-! ### A sign in front -/

/-- A sign does not change whether the text behind it ends in a command. -/
theorem endsWithCommand_cons {c : Char} (hletter : c.isAlpha = false) (hcommand : c ≠ '\\')
    (text : List Char) : endsWithCommand (c :: text) = endsWithCommand text := by
  by_cases h : ∃ d ∈ text, Char.isAlpha d = false
  · exact endsWithCommand_append [c] h
  · have hletters : ∀ d ∈ text, Char.isAlpha d = true := by
      intro d hd
      by_contra hnot
      exact h ⟨d, hd, by simpa using hnot⟩
    have hnone : text.reverse.dropWhile Char.isAlpha = [] := by
      rw [List.dropWhile_eq_nil_iff]
      intro d hd
      exact hletters d (List.mem_reverse.mp hd)
    have hsign : (c :: text).reverse.dropWhile Char.isAlpha = [c] := by
      rw [List.reverse_cons, List.dropWhile_append_of_pos (by simpa using hletters)]
      simp [hletter]
    have hend : (some c == some '\\') = false := by simpa using hcommand
    simp only [endsWithCommand, hsign, hnone, List.head?_cons, List.head?_nil, hend, Bool.and_false]
    exact (Bool.and_false _).symm

theorem cons_append_eq {c : Char} (hletter : c.isAlpha = false) (hcommand : c ≠ '\\')
    (text piece : List Char) : append (c :: text) piece = c :: append text piece := by
  rw [append, append, endsWithCommand_cons hletter hcommand]
  split <;> rfl

/-- A sign in front of pieces is a sign in front of the first of them. -/
theorem joinChars_sign {c : Char} (hletter : c.isAlpha = false) (hcommand : c ≠ '\\')
    (piece : List Char) (pieces : List (List Char)) :
    joinChars [[c], joinChars (piece :: pieces)] =
      joinChars (joinChars [[c], piece] :: pieces) := by
  have hsign : ∀ text, append [c] text = c :: text := by
    intro text
    rw [cons_append_eq hletter hcommand, nil_append]
  have hfold : ∀ text : List Char,
      pieces.foldl append (c :: text) = c :: pieces.foldl append text := by
    induction pieces with
    | nil =>
      intro text
      rfl
    | cons next pieces ih =>
      intro text
      rw [List.foldl_cons, List.foldl_cons, cons_append_eq hletter hcommand]
      exact ih (append text next)
  simp only [joinChars, List.foldl_cons, List.foldl_nil, nil_append, hsign, hfold]

/-- The token of what `append` puts between an operator and its operand. -/
def gapTokens (word operand : List Char) : List Token :=
  if startsWithLetter operand && endsWithCommand word then [.space] else []

/-- An operator in front of its operand keeps its tokens. -/
theorem scans_word_operand {word operand : List Char} {tokens tokens' : List Token}
    (hword : Word word tokens) (hne : operand ≠ []) (hoperand : Scans operand tokens') :
    Scans (word ++ gap word operand ++ operand) (tokens ++ gapTokens word operand ++ tokens') := by
  intro after
  have hstarts : startsWithLetter (operand ++ after) = startsWithLetter operand := by
    rw [startsWithLetter, startsWithLetter, head?_append_of_ne_nil hne]
  by_cases hgap : (startsWithLetter operand && endsWithCommand word) = true
  · have hletter : startsWithLetter operand = true := by
      rw [Bool.and_eq_true] at hgap
      exact hgap.1
    have hspace : scan (' ' :: (operand ++ after)) = .space :: scan (operand ++ after) :=
      scan_space_letter (hstarts.trans hletter)
    rw [gap, gapTokens, if_pos hgap, if_pos hgap]
    simp only [List.append_assoc, List.cons_append, List.nil_append]
    rw [hword.scan_eq _ (fun _ => rfl), hspace, hoperand]
  · rw [gap, gapTokens, if_neg hgap, if_neg hgap]
    simp only [List.append_nil, List.append_assoc]
    rw [hword.scan_eq, hoperand]
    intro hcommand
    rw [hstarts]
    cases hletter : startsWithLetter operand with
    | false => rfl
    | true =>
      rw [hletter, hcommand] at hgap
      exact absurd rfl hgap

end Formula.Latex
