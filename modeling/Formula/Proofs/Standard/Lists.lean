import Formula.Proofs.Reader.Parts
import Formula.Proofs.Standard.Braces
import Formula.Proofs.Token.Canonical

/-!
  **Nested lists keep every element.**

  Between `\lbrack` and `\rbrack` the elements stand with commas between them.  An unknown command
  among them is an error, so the sequence that the comma has built so far is no longer valid and
  normalization does not open it.  The comma adds to it by hand, and the brackets take its elements
  by hand.  `elementsOf` is what both take, so the induction over the elements says what the
  elements are, and not whether they are valid.

  Blanks may stand between the words of a list but not in a number, so the source of a list is given
  by its words.
-/

namespace Formula

open Latex Reader Standard
open Token (scan isSourceBlank)

/-! ### Lists and their source -/

/-- A command that the standard notations do not know: no trigger starts with it, and it makes
    neither space nor structure. -/
structure UnknownCommand (name : String) : Prop where
  formed : (Token.command name).Formed
  avoids : ∀ entry ∈ (standardEntries : List (Entry Unit)), entry.Avoids (.command name)
  spacing : name ∉ spacingCommands
  structural : name ∉ ["\\left", "\\right", "\\begin", "\\end", "\\\\"]

/-- A letter, a whole number that fits, an unknown command, or a list of these. -/
inductive ListLiteral where
  | letter (c : Char) (alpha : c.isAlpha = true)
  | number (digits : List Char) (ne : digits ≠ []) (decimal : ∀ c ∈ digits, c.isDigit = true)
    (fits : digitsValue digits ≤ largestInteger)
  | unknown (name : String) (command : UnknownCommand name)
  | list (elements : List ListLiteral)

namespace ListLiteral

mutual

/-- The tree of the same shape, with an error in the place of an unknown command. -/
def expr : ListLiteral → Expr
  | .letter c _ => .symbol (String.singleton c)
  | .number digits _ _ _ => .number (.integer (digitsValue digits))
  | .unknown name _ => Tree.errorCall .unexpectedCommand (some name) (some name)
  | .list elements => .call () "List" (exprs elements)

def exprs : List ListLiteral → List Expr
  | [] => []
  | l :: others => l.expr :: exprs others

end

mutual

/-- The words of the source. -/
def words : ListLiteral → List (List Token)
  | .letter c _ => [[.char c]]
  | .number digits _ _ _ => [digits.map .char]
  | .unknown name _ => [[.command name]]
  | .list elements => [.command "\\lbrack"] :: (elementWords [] elements ++ [[.command "\\rbrack"]])

/-- The words of elements, with those in front of the first one. -/
def elementWords (separator : List (List Token)) : List ListLiteral → List (List Token)
  | [] => []
  | l :: others => separator ++ (l.words ++ elementWords [[.char ',']] others)

end

/-- The source with a blank behind each word. -/
def latex (l : ListLiteral) : String :=
  String.ofList (l.words.flatMap fun word => word.flatMap Token.toList ++ [' '])

theorem exprs_eq_map (elements : List ListLiteral) : exprs elements = elements.map expr := by
  induction elements with
  | nil => rfl
  | cons l others ih => rw [exprs, ih, List.map_cons]

/-- Every literal is one if the elements of a list are. -/
@[elab_as_elim]
theorem induction {motive : ListLiteral → Prop}
    (letter : ∀ c alpha, motive (.letter c alpha))
    (number : ∀ digits ne decimal fits, motive (.number digits ne decimal fits))
    (unknown : ∀ name command, motive (.unknown name command))
    (list : ∀ elements, (∀ l ∈ elements, motive l) → motive (.list elements)) :
    ∀ l, motive l
  | .letter c alpha => letter c alpha
  | .number digits ne decimal fits => number digits ne decimal fits
  | .unknown name command => unknown name command
  | .list elements => list elements fun l _ => induction letter number unknown list l

end ListLiteral

/-- The tokens are those of the words, with blanks between them. -/
inductive Spaced : List (List Token) → List Token → Prop where
  | nil {blanks : List Token} (spacing : ∀ t ∈ blanks, isSpacing t = true) : Spaced [] blanks
  | cons {blanks : List Token} (word : List Token) {words : List (List Token)} {tail : List Token}
    (spacing : ∀ t ∈ blanks, isSpacing t = true) (rest : Spaced words tail) :
    Spaced (word :: words) (blanks ++ (word ++ tail))

namespace Spaced

variable {words : List (List Token)} {rest : List Token}

theorem skipSpace_append {blanks : List Token} (h : ∀ t ∈ blanks, isSpacing t = true)
    (rest : List Token) : skipSpace (blanks ++ rest) = skipSpace rest :=
  List.dropWhile_append_of_pos h

/-- Behind blanks stands the first word. -/
theorem word {t : Token} {ts : List Token} (h : Spaced ((t :: ts) :: words) rest)
    (ht : isSpacing t = false) :
    ∃ tail, skipSpace rest = t :: ts ++ tail ∧ Spaced words tail := by
  cases h with
  | cons word hspacing htail =>
    exact ⟨_, (skipSpace_append hspacing _).trans (skipSpace_cons_of_not _ ht), htail⟩

theorem end_eq (h : Spaced [] rest) : skipSpace rest = [] := by
  cases h with
  | nil hspacing => exact List.dropWhile_eq_nil_iff.mpr hspacing

theorem next (word : List Token) (h : Spaced words rest) :
    Spaced (word :: words) (word ++ rest) :=
  .cons word (List.forall_mem_nil _) h

theorem blank (h : Spaced words rest) {t : Token} (ht : isSpacing t = true) :
    Spaced words (t :: rest) := by
  cases h with
  | nil hspacing => exact .nil (List.forall_mem_cons.mpr ⟨ht, hspacing⟩)
  | cons word hspacing htail =>
    rw [← List.cons_append]
    exact .cons word (List.forall_mem_cons.mpr ⟨ht, hspacing⟩) htail

end Spaced

/-! ### The source of a literal -/

/-- The word is scanned from its text unless a letter follows, and it does not start with a
    blank. -/
structure Solid (word : List Token) : Prop where
  scan_eq : ∀ after, startsWithLetter after = false →
    scan (word.flatMap Token.toList ++ after) = word ++ scan after
  start : ∀ after, (word.flatMap Token.toList ++ after).head?.any isSourceBlank = false

theorem solid_token {t : Token} (h : t.Formed) (hlone : t ≠ .char '\\') (hspace : t ≠ .space) :
    Solid [t] where
  scan_eq after hafter := by
    rw [List.flatMap_singleton]
    exact h.scan_append hlone (fun _ => hafter) fun heq => absurd heq hspace
  start after := by
    rw [List.flatMap_singleton]
    by_contra hblank
    exact hspace ((h.head?_append after).2 (by simpa using hblank))

theorem solid_command {name : String} (h : (Token.command name).Formed) :
    Solid [.command name] := solid_token h (by simp) (by simp)

theorem solid_chars {chars : List Char} (hne : chars ≠ []) (h : ∀ c ∈ chars, Ordinary c) :
    Solid (chars.map .char) where
  scan_eq after _ := by
    rw [List.flatMap_map]
    simpa [Token.toList] using scans_chars h after
  start after := by
    cases chars with
    | nil => exact absurd rfl hne
    | cons c chars => exact (h c List.mem_cons_self).blank

theorem scan_words {words : List (List Token)} (h : ∀ word ∈ words, Solid word) :
    scan (words.flatMap fun word => word.flatMap Token.toList ++ [' ']) =
      words.flatMap (· ++ [.space]) := by
  induction words with
  | nil => exact scan_nil
  | cons word words ih =>
    obtain ⟨hword, hwords⟩ := List.forall_mem_cons.mp h
    have hblank : (words.flatMap fun word => word.flatMap Token.toList ++ [' ']).head?.any
        isSourceBlank = false := by
      cases words with
      | nil => rfl
      | cons next words =>
        rw [List.flatMap_cons, List.append_assoc]
        exact (hwords next List.mem_cons_self).start _
    rw [List.flatMap_cons, List.flatMap_cons, List.append_assoc, List.singleton_append,
      hword.scan_eq _ rfl, scan_space hblank, ih hwords, List.append_assoc, List.singleton_append]

theorem spaced_words (words : List (List Token)) :
    Spaced words (words.flatMap (· ++ [.space])) := by
  induction words with
  | nil => exact .nil (by simp)
  | cons word words ih =>
    rw [List.flatMap_cons, List.append_assoc]
    exact .next word (ih.blank rfl)

namespace ListLiteral

theorem solid_elementWords {separator : List (List Token)} (hseparator : ∀ w ∈ separator, Solid w)
    {elements : List ListLiteral} (h : ∀ l ∈ elements, ∀ w ∈ l.words, Solid w) :
    ∀ w ∈ elementWords separator elements, Solid w := by
  have hcomma : ∀ w ∈ [[Token.char ',']], Solid w := by
    intro w hw
    rw [List.mem_singleton.mp hw]
    exact solid_token (.char (by decide)) (by decide) (by decide)
  induction elements generalizing separator with
  | nil => simp [elementWords]
  | cons l others ih =>
    obtain ⟨hl, hothers⟩ := List.forall_mem_cons.mp h
    rw [elementWords]
    exact List.forall_mem_append.mpr
      ⟨hseparator, List.forall_mem_append.mpr ⟨hl, ih hcomma hothers⟩⟩

theorem solid_words (l : ListLiteral) : ∀ w ∈ l.words, Solid w := by
  have hbracket : ∀ letters : List Char, letters ≠ [] → (∀ c ∈ letters, c.isAlpha = true) →
      Solid [.command (String.ofList ('\\' :: letters))] := fun letters ne alpha =>
    solid_command (.word ne alpha)
  induction l using ListLiteral.induction with
  | letter c alpha =>
    have hchars : ∀ d ∈ [c], Ordinary d := by simpa using ordinary_of_isAlpha alpha
    simpa [words] using solid_chars (List.cons_ne_nil c []) hchars
  | number digits ne decimal fits =>
    simpa [words] using solid_chars ne fun c hc => ordinary_of_isDigit (decimal c hc)
  | unknown name command => simpa [words] using solid_command command.formed
  | list elements ih =>
    have hopen := hbracket "lbrack".toList (by decide) (List.all_eq_true.mp (by decide))
    have hclose := hbracket "rbrack".toList (by decide) (List.all_eq_true.mp (by decide))
    rw [words, List.forall_mem_cons, List.forall_mem_append, List.forall_mem_singleton]
    exact ⟨hopen, solid_elementWords (by simp) ih, hclose⟩

/-- Every literal has a source. -/
theorem spaced_latex (l : ListLiteral) : Spaced l.words (tokenize l.latex) := by
  rw [latex, tokenize, String.toList_ofList, scan_words l.solid_words]
  exact spaced_words l.words

end ListLiteral

/-! ### The brackets and the comma -/

def listBrackets : Entry Unit := .matchfix "List" "\\lbrack" "\\rbrack"

theorem listBrackets_mem : listBrackets ∈ (standardEntries : List (Entry Unit)) := by
  simp [standardEntries, arithmeticEntries, structureEntries, listBrackets]

theorem word_lbrack : Word "\\lbrack".toList [.command "\\lbrack"] :=
  @word_command "lbrack".toList (by decide) (List.all_eq_true.mp (by decide))

theorem word_rbrack : Word "\\rbrack".toList [.command "\\rbrack"] :=
  @word_command "rbrack".toList (by decide) (List.all_eq_true.mp (by decide))

theorem lbrack_tokens : (Trigger.ofLatex "\\lbrack").tokens = [.command "\\lbrack"] :=
  Trigger.tokens_of_word word_lbrack (by simp [Token.isSpace])

theorem rbrack_tokens : (Trigger.ofLatex "\\rbrack").tokens = [.command "\\rbrack"] :=
  Trigger.tokens_of_word word_rbrack (by simp [Token.isSpace])

theorem only_listBrackets (rest : List Token) :
    Only Engine.standard [.symbol, .prefixOp, .matchfix] listBrackets (.ofLatex "\\lbrack") rest :=
  only_standard listBrackets_mem (List.mem_singleton_self _) (by decide) lbrack_tokens
    (by decide +kernel) rest

theorem isCloser_rbrack :
    (Engine.standard : Engine Unit).dictionary.isCloser (.command "\\rbrack") = true := by
  rw [Dictionary.indexed_standard.closer_eq]
  decide +kernel

theorem ends_rbrack (rest : List Token) : Ends Engine.standard (.command "\\rbrack" :: rest) := by
  rintro t ⟨rfl⟩
  exact Or.inr isCloser_rbrack

theorem proper_listBrackets : Proper Engine.standard
    { minPrec := 0, close := some (Trigger.ofLatex "\\rbrack").tokens } := by
  rintro close ⟨rfl⟩
  exact ⟨_, _, rbrack_tokens, isCloser_rbrack⟩

/-! ### Elements -/

/-- The words that may stand behind an element. -/
def Closing (words : List (List Token)) : Prop :=
  ∀ word ∈ words.head?, word = [.char ','] ∨ word = [.command "\\rbrack"]

theorem closing_elementWords (es : List ListLiteral) (words : List (List Token)) :
    Closing (ListLiteral.elementWords [[.char ',']] es ++ [.command "\\rbrack"] :: words) := by
  cases es with
  | nil =>
    rintro word ⟨rfl⟩
    exact Or.inr rfl
  | cons l es =>
    rintro word ⟨rfl⟩
    exact Or.inl rfl

/-- What stands behind an element neither goes on with a number nor opens a group. -/
theorem Spaced.behind {words : List (List Token)} {rest : List Token} (h : Spaced words rest)
    (hclosing : Closing words) :
    Apart rest ∧ rest.head? ≠ some .groupStart := by
  have hfirst : ∀ t ∈ rest.head?, isSpacing t = true ∨ t = .char ',' ∨ t = .command "\\rbrack" := by
    intro t ht
    cases h with
    | nil hspacing => exact Or.inl (hspacing t (List.mem_of_mem_head? ht))
    | @cons blanks word words tail hspacing htail =>
      cases blanks with
      | cons blank blanks =>
        obtain rfl : blank = t := by simpa using ht
        exact Or.inl (hspacing blank List.mem_cons_self)
      | nil =>
        right
        rcases hclosing word rfl with rfl | rfl
        · exact Or.inl (by simpa using ht.symm)
        · exact Or.inr (by simpa using ht.symm)
  cases rest with
  | nil => exact ⟨by rintro t ⟨⟩, by simp⟩
  | cons t rest =>
    have ht := hfirst t rfl
    constructor
    · rintro u ⟨rfl⟩
      rcases ht with ht | rfl | rfl
      · cases t <;> first | exact ⟨rfl, by simp⟩ | cases ht
      · exact ⟨by decide, by decide⟩
      · exact ⟨by decide, by decide⟩
    · rintro ⟨rfl⟩
      rcases ht with ht | ht | ht <;> cases ht

/-- Behind an element the right side of a comma ends. -/
theorem halts_behind {es : List ListLiteral} {words : List (List Token)} {rest : List Token}
    (h : Spaced
      (ListLiteral.elementWords [[.char ',']] es ++ [.command "\\rbrack"] :: words) rest) :
    Halts Engine.standard (sequencePrecedence + 1) (skipSpace rest) := by
  cases es with
  | nil =>
    obtain ⟨tail, hskip, -⟩ := Spaced.word h rfl
    rw [hskip]
    exact ⟨rfl, Or.inl (ends_rbrack tail)⟩
  | cons l es =>
    obtain ⟨tail, hskip, -⟩ := Spaced.word h rfl
    rw [hskip]
    exact halts_comma_token (Nat.lt_succ_self _) tail

/-- The expression is the first thing to be read, and the words go on behind it. -/
def ReadFirst (words : List (List Token)) (e : Expr) : Prop :=
  ∀ (stop : Terminator) (more : List (List Token)) (rest : List Token),
    Proper Engine.standard stop → Closing more → Spaced (words ++ more) rest →
      ∃ tail, Spaced more tail ∧
        expression Engine.standard Engine.standard.host stop rest =
          completed Engine.standard stop e tail

/-- A single word. -/
theorem reads_word {t : Token} {ts : List Token} (ht : isSpacing t = false) {e : Expr}
    (hprimary : ∀ (stop : Terminator) (rest : List Token), Proper Engine.standard stop →
      Apart rest → rest.head? ≠ some .groupStart →
      primary Engine.standard Engine.standard.host
        (expression Engine.standard Engine.standard.host) stop (t :: ts ++ rest) =
          pure (some e, rest)) : ReadFirst [t :: ts] e := by
  intro stop more rest hstop hclosing hrest
  obtain ⟨tail, hskip, htail⟩ := hrest.word ht
  obtain ⟨hapart, hgroup⟩ := htail.behind hclosing
  refine ⟨tail, htail, ?_⟩
  rw [← expression_skipSpace Engine.accepted_standard, hskip]
  exact expression_of_primary Engine.accepted_standard (hprimary stop tail hstop hapart hgroup)

theorem reads_letter {c : Char} (hc : c.isAlpha = true) :
    ReadFirst [[.char c]] (.symbol (String.singleton c)) := by
  refine reads_word rfl ?_
  intro stop rest hstop hapart _
  exact primary_letter (by decide) hc (Engine.free_letter_standard hc) stop rest hstop hapart

theorem reads_number {digits : List Char} (hne : digits ≠ [])
    (hdigits : ∀ c ∈ digits, c.isDigit = true) (hfits : digitsValue digits ≤ largestInteger) :
    ReadFirst [digits.map .char] (.number (.integer (digitsValue digits))) := by
  have hvalue : wholeNumber digits = .integer (digitsValue digits) := if_pos hfits
  have hprimary := primary_digits hne hdigits fun _ => Engine.free_digit_standard
  rw [hvalue] at hprimary
  cases digits with
  | nil => exact absurd rfl hne
  | cons c digits =>
    refine reads_word rfl ?_
    intro stop rest hstop hapart _
    exact hprimary stop rest hstop hapart

/-- A command that no notation starts with is an error.  Without a group behind it the error shows
    the command alone. -/
theorem primary_unknown {engine : Engine Unit} {name : String}
    (hpromotion : engine.options.promotion ≠ .always) (hfree : engine.Free (.command name))
    (hopens : Opens engine (.command name)) (hname : name ≠ "\\begin" ∧ name ≠ "\\left")
    {stop : Terminator} (hstop : Proper engine stop) {rest : List Token}
    (hgroup : rest.head? ≠ some .groupStart) :
    primary engine engine.host (expression engine engine.host) stop (.command name :: rest) =
      pure (some (Tree.errorCall .unexpectedCommand (some name) (some name)), rest) := by
  have hnone := fun kinds => Dictionary.candidates_of_no_readings hfree.readings rest kinds
  have hoperator : atOperator engine.dictionary (.command name :: rest) = false := by
    rw [atOperator, Dictionary.lookup?, hnone]
    rfl
  have hsource : ofTokens (between (.command name :: rest) rest) = name := by
    rw [ofTokens_between_token, Token.text, Token.toList, String.ofList_toList]
  have halways : (engine.options.promotion == .always) = false := by simpa using hpromotion
  have hcommand : unknownCommand engine engine.host name (.command name :: rest) =
      pure (Tree.errorCall .unexpectedCommand (some name) (some name), rest) := by
    unfold unknownCommand
    simp only [List.drop_one, List.tail_cons, halways, Bool.and_false, Bool.false_eq_true,
      if_false, skipGroups_of_not hgroup, errorAt_eq, hsource, pure_bind]
  refine primary_unclaimed hstop hopens (hnone _) ?_
  simp only [unclaimed, Token.isCommand, beq_eq_false_iff_ne.mpr hname.1,
    beq_eq_false_iff_ne.mpr hname.2, hoperator, Bool.false_eq_true, if_false, hcommand, map_pure]

theorem reads_unknown {name : String} (h : UnknownCommand name) :
    ReadFirst [[.command name]] (Tree.errorCall .unexpectedCommand (some name) (some name)) := by
  have hfree : (Engine.standard : Engine Unit).Free (.command name) :=
    Engine.free_of_avoids Dictionary.indexed_standard h.avoids
  have hspacing : isSpacing (.command name) = false := by simpa [isSpacing] using h.spacing
  have hstructural := h.structural
  simp only [List.mem_cons, List.not_mem_nil, or_false, not_or] at hstructural
  obtain ⟨hleft, hright, hbegin, hend, hrow⟩ := hstructural
  have hopens : Opens Engine.standard (.command name) :=
    ⟨hspacing, by simp [isBoundary, hright, hend, hrow], hfree.closer⟩
  refine reads_word hspacing ?_
  intro stop rest hstop _ hgroup
  exact primary_unknown (by decide) hfree hopens ⟨hbegin, hleft⟩ hstop hgroup

/-- What follows the first element is added to it, up to the closing bracket. -/
theorem more_separated {stop : Terminator} (hstop : Proper Engine.standard stop)
    (hbound : stop.minPrec ≤ sequencePrecedence) {more : List (List Token)}
    {es : List ListLiteral} (hes : ∀ l ∈ es, ReadFirst l.words l.expr ∧ Bare l.expr)
    {rest : List Token}
    (hrest : Spaced
      (ListLiteral.elementWords [[.char ',']] es ++ [.command "\\rbrack"] :: more) rest)
    {lhs : Expr} (hlhs : ∀ e ∈ elementsOf lhs, Bare e) :
    ∃ body tail, Spaced more tail ∧
      Reader.more Engine.standard stop lhs rest = pure (body, .command "\\rbrack" :: tail) ∧
      elementsOf body = elementsOf lhs ++ ListLiteral.exprs es := by
  induction es generalizing lhs rest with
  | nil =>
    obtain ⟨tail, hskip, htail⟩ := Spaced.word hrest rfl
    refine ⟨lhs, tail, htail, ?_, (List.append_nil _).symm⟩
    rw [← more_skipSpace Engine.accepted_standard, hskip]
    exact more_of_halts ⟨rfl, Or.inl (ends_rbrack tail)⟩
  | cons l es ih =>
    obtain ⟨⟨hread, hbare⟩, hes⟩ := List.forall_mem_cons.mp hes
    rw [ListLiteral.elementWords, List.append_assoc, List.singleton_append, List.append_assoc]
      at hrest
    obtain ⟨tail, hskip, htail⟩ := Spaced.word hrest rfl
    obtain ⟨behind, hbehind, hexpression⟩ := hread (stop.withMinPrec (sequencePrecedence + 1)) _
      tail (hstop.withMinPrec _) (closing_elementWords es more) htail
    have hnext : expression Engine.standard Engine.standard.host
        (stop.withMinPrec (sequencePrecedence + 1)) tail =
          pure (some l.expr, skipSpace behind) := by
      rw [hexpression, completed, ← more_skipSpace Engine.accepted_standard,
        more_of_halts (halts_behind hbehind)]
      rfl
    -- the comma adds the element to those so far, also where one of them is an error
    have hlhs' : ∀ e ∈ elementsOf lhs ++ [l.expr], Bare e :=
      List.forall_mem_append.mpr ⟨hlhs, by simpa using hbare⟩
    have hsnoc : elementsOf (.call () "Sequence" (elementsOf lhs ++ [l.expr])) =
        elementsOf lhs ++ [l.expr] := rfl
    obtain ⟨body, after, hafter, hmore, hbody⟩ := ih hes hbehind (hsnoc ▸ hlhs')
    refine ⟨body, after, hafter, ?_, ?_⟩
    · rw [← more_skipSpace Engine.accepted_standard, hskip]
      show Reader.more Engine.standard stop lhs (.char ',' :: tail) = _
      rw [more_comma hstop hbound lhs hnext, Option.toList_some, call_sequence hlhs',
        more_skipSpace Engine.accepted_standard, hmore]
    · rw [hbody, hsnoc, List.append_assoc]
      rfl

/-- What stands between the brackets has the elements for its own, and without any there is no
    expression. -/
theorem expression_elements {more : List (List Token)} {es : List ListLiteral}
    (hes : ∀ l ∈ es, ReadFirst l.words l.expr ∧ Bare l.expr) {rest : List Token}
    (hrest : Spaced (ListLiteral.elementWords [] es ++ [.command "\\rbrack"] :: more) rest) :
    ∃ body tail, Spaced more tail ∧
      expression Engine.standard Engine.standard.host
        { minPrec := 0, close := some (Trigger.ofLatex "\\rbrack").tokens } rest =
          pure (body, .command "\\rbrack" :: tail) ∧
      body.elim [] elementsOf = ListLiteral.exprs es := by
  cases es with
  | nil =>
    obtain ⟨tail, hskip, htail⟩ := Spaced.word hrest rfl
    have hskip : skipSpace rest = .command "\\rbrack" :: tail := hskip
    have hends : Ends Engine.standard (skipSpace rest) := by
      rw [hskip]
      exact ends_rbrack tail
    have hnone := expression_of_ends Engine.accepted_standard
      { minPrec := 0, close := some (Trigger.ofLatex "\\rbrack").tokens } hends
    rw [hskip] at hnone
    exact ⟨none, tail, htail, hnone, rfl⟩
  | cons l es =>
    obtain ⟨⟨hread, hbare⟩, hes⟩ := List.forall_mem_cons.mp hes
    rw [ListLiteral.elementWords, List.nil_append, List.append_assoc] at hrest
    obtain ⟨behind, hbehind, hexpression⟩ := hread _ _ rest proper_listBrackets
      (closing_elementWords es more) hrest
    have hfound : ∀ e ∈ elementsOf l.expr, Bare e := by
      rw [hbare.elementsOf_eq]
      simpa using hbare
    obtain ⟨body, tail, htail, hmore, hbody⟩ :=
      more_separated proper_listBrackets (Nat.zero_le _) hes hbehind hfound
    rw [hbare.elementsOf_eq] at hbody
    refine ⟨some body, tail, htail, ?_, hbody⟩
    rw [hexpression, completed, hmore]
    rfl

theorem reads_list {es : List ListLiteral}
    (hes : ∀ l ∈ es, ReadFirst l.words l.expr ∧ Bare l.expr) :
    ReadFirst (ListLiteral.list es).words (ListLiteral.list es).expr := by
  intro stop more rest hstop _ hrest
  rw [ListLiteral.words, List.cons_append, List.append_assoc, List.singleton_append] at hrest
  obtain ⟨inside, hskip, hinside⟩ := Spaced.word hrest rfl
  obtain ⟨body, tail, htail, hbody, helements⟩ := expression_elements hes hinside
  refine ⟨tail, htail, ?_⟩
  have honly := only_listBrackets inside
  obtain ⟨t, ts, htokens, hopens, -, -⟩ := honly.opens
  obtain ⟨consumed, hfound⟩ := honly.found
  have hend : matchTokens (Trigger.ofLatex "\\rbrack").tokens
      (skipSpace (.command "\\rbrack" :: tail)) = some tail := by
    rw [rbrack_tokens, skipSpace_cons_of_not tail rfl, matchTokens, if_pos rfl]
  have hcontents : body.elim [] (contents "List") = ListLiteral.exprs es := helements
  have hcall : (Engine.standard : Engine Unit).call "List" (ListLiteral.exprs es) =
      .call () "List" (ListLiteral.exprs es) := by
    refine Engine.call_plain rfl fun e he => ?_
    rw [ListLiteral.exprs_eq_map] at he
    obtain ⟨l, hl, rfl⟩ := List.mem_map.mp he
    exact (hes l hl).2.isGrouping
  rw [lbrack_tokens] at htokens hfound
  cases htokens
  rw [← expression_skipSpace Engine.accepted_standard, hskip, ListLiteral.expr, ← hcall,
    ← hcontents]
  exact expression_of_primary Engine.accepted_standard
    (primary_matchfix hstop hopens hfound rfl rfl rfl rfl hbody hend)

namespace ListLiteral

theorem bare (l : ListLiteral) : Bare l.expr := by
  cases l <;> exact ⟨by simp [expr, Tree.errorCall, Tree.headName?],
    by simp [expr, Tree.errorCall, Tree.headName?]⟩

/-- Every literal is read as the tree of its shape. -/
theorem reads (l : ListLiteral) : ReadFirst l.words l.expr := by
  induction l using ListLiteral.induction with
  | letter c alpha => exact reads_letter alpha
  | number digits ne decimal fits => exact reads_number ne decimal fits
  | unknown name command => exact reads_unknown command
  | list elements ih => exact reads_list fun l hl => ⟨ih l hl, l.bare⟩

end ListLiteral

/-- **Nested lists keep every element.**  A list of letters, whole numbers that fit, unknown
    commands and such lists, of any length and at any depth, is read as the call of `List` that has
    just its elements in their order, each unknown command being an error in its own place; and
    every such list has a source. -/
theorem parse_listLiteral (elements : List ListLiteral) :
    (∀ latex : String, Spaced (ListLiteral.list elements).words (tokenize latex) →
      Engine.standard.parse latex = .call () "List" (elements.map ListLiteral.expr)) ∧
    Spaced (ListLiteral.list elements).words (tokenize (ListLiteral.list elements).latex) := by
  refine ⟨fun latex hspaced => ?_, ListLiteral.spaced_latex _⟩
  have hclosing : Closing [] := by
    rintro word ⟨⟩
  obtain ⟨tail, htail, hread⟩ := (ListLiteral.list elements).reads {} [] (tokenize latex)
    proper_default hclosing (by rwa [List.append_nil])
  rw [ListLiteral.expr, ListLiteral.exprs_eq_map] at hread
  apply parseTokens_of_expression Engine.accepted_standard
  rw [hread, completed, ← more_skipSpace Engine.accepted_standard, htail.end_eq,
    more_of_halts (halts_nil _)]
  rfl

theorem unknownCommand_foo : UnknownCommand "\\foo" where
  formed := @Token.Formed.word "foo".toList (by decide) (List.all_eq_true.mp (by decide))
  avoids := by decide +kernel
  spacing := by decide
  structural := by decide

/-- A list in a list, empty, and a command between a letter and a number. -/
theorem parse_listLiteral_unknown :
    Engine.standard.parse "\\lbrack a, \\foo , 12,\\lbrack\\rbrack\\rbrack" =
      .call () "List" [.symbol "a",
        Tree.errorCall .unexpectedCommand (some "\\foo") (some "\\foo"),
        .number (.integer 12), .call () "List" []] := by
  have htokens : tokenize "\\lbrack a, \\foo , 12,\\lbrack\\rbrack\\rbrack" =
      [.command "\\lbrack", .space, .char 'a', .char ',', .space, .command "\\foo", .space,
        .char ',', .space, .char '1', .char '2', .char ',', .command "\\lbrack",
        .command "\\rbrack", .command "\\rbrack"] := by
    decide +kernel
  refine (parse_listLiteral [.letter 'a' rfl, .unknown "\\foo" unknownCommand_foo,
    .number ['1', '2'] (by decide) (List.all_eq_true.mp (by decide)) (by decide),
    .list []]).1 _ ?_
  rw [htokens]
  exact .next [.command "\\lbrack"] <| .blank (.next [.char 'a'] <| .next [.char ','] <|
    .blank (.next [.command "\\foo"] <| .blank (.next [.char ','] <|
      .blank (.next [.char '1', .char '2'] <| .next [.char ','] <| .next [.command "\\lbrack"] <|
        .next [.command "\\rbrack"] <| .next [.command "\\rbrack"] <| .nil (by simp)) rfl) rfl)
      rfl) rfl

end Formula
