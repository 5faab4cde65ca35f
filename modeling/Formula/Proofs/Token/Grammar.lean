import Formula.Token.Lexer

/-!
  **The grammar of tokens.**

  The source is described by parsing expressions.  Such an expression takes characters from the
  front of a text or fails there.  A choice takes its second branch only where the first fails, and
  a repetition takes as much as it can; neither is reconsidered when something fails behind it.
  `Reads` is what an expression does at the front of a text.
-/

namespace Formula.Token

/-- A parsing expression. -/
inductive Grammar where
  /-- Nothing. -/
  | empty
  /-- One character of a kind. -/
  | one (p : Char → Bool)
  /-- One after the other. -/
  | seq (a b : Grammar)
  /-- The second only where the first fails. -/
  | choice (a b : Grammar)
  /-- Again and again, up to where it fails. -/
  | many (a : Grammar)
  /-- Nothing, where the expression fails. -/
  | absent (a : Grammar)
  /-- What the expression takes is one token. -/
  | token (make : List Char → Option Token) (a : Grammar)

namespace Grammar

def char (c : Char) : Grammar := one (· == c)

def any : Grammar := one fun _ => true

def letter : Grammar := one Char.isAlpha

def many1 (a : Grammar) : Grammar := seq a (many a)

def optional (a : Grammar) : Grammar := choice a empty

def lineEnd : Grammar := choice (char '\n') (choice (seq (char '\r') (char '\n')) (char '\r'))

def comment : Grammar := seq (char '%') (seq (many (seq (absent lineEnd) any)) (optional lineEnd))

def blank : Grammar := choice (char ' ') (choice (char '\t') lineEnd)

def space : Grammar := token (fun _ => some .space) (many1 blank)

def command : Grammar :=
  token (fun text => some (.command (String.ofList text)))
    (seq (char '\\') (choice (many1 letter) any))

def groupStart : Grammar := token (fun _ => some .groupStart) (char '\x7b')

def groupEnd : Grammar := token (fun _ => some .groupEnd) (char '\x7d')

def character : Grammar := token (fun text => text.head?.map .char) any

/-- A comment or a token. -/
def item : Grammar :=
  choice comment
    (choice space (choice command (choice groupStart (choice groupEnd character))))

/-- Comments and tokens up to the end of the text. -/
def source : Grammar := seq (many item) (absent any)

/-- What the expression does at the front of a text: it fails, or it yields tokens and leaves the
    rest of the text. -/
inductive Reads : Grammar → List Char → Option (List Token × List Char) → Prop where
  | empty {text} : Reads .empty text (some ([], text))
  | one {p c rest} (kind : p c = true) : Reads (.one p) (c :: rest) (some ([], rest))
  | one_other {p c rest} (kind : p c = false) : Reads (.one p) (c :: rest) none
  | one_end {p} : Reads (.one p) [] none
  | seq {a b text tokens rest tokens' rest'} (first : Reads a text (some (tokens, rest)))
      (second : Reads b rest (some (tokens', rest'))) :
      Reads (.seq a b) text (some (tokens ++ tokens', rest'))
  | seq_first {a b text} (first : Reads a text none) : Reads (.seq a b) text none
  | seq_second {a b text tokens rest} (first : Reads a text (some (tokens, rest)))
      (second : Reads b rest none) : Reads (.seq a b) text none
  | choice_first {a b text result} (first : Reads a text (some result)) :
      Reads (.choice a b) text (some result)
  | choice_second {a b text result} (first : Reads a text none) (second : Reads b text result) :
      Reads (.choice a b) text result
  | many_end {a text} (first : Reads a text none) : Reads (.many a) text (some ([], text))
  | many {a text tokens rest tokens' rest'} (first : Reads a text (some (tokens, rest)))
      (others : Reads (.many a) rest (some (tokens', rest'))) :
      Reads (.many a) text (some (tokens ++ tokens', rest'))
  | absent {a text} (first : Reads a text none) : Reads (.absent a) text (some ([], text))
  | absent_not {a text result} (first : Reads a text (some result)) : Reads (.absent a) text none
  | token {make a text taken inner rest} (split : text = taken ++ rest)
      (first : Reads a text (some (inner, rest))) :
      Reads (.token make a) text (some ((make taken).toList, rest))
  | token_none {make a text} (first : Reads a text none) : Reads (.token make a) text none

/-! ### One reading -/

/-- An expression does one thing at the front of a text. -/
theorem Reads.unique {g : Grammar} {text : List Char} {r r' : Option (List Token × List Char)}
    (h : Reads g text r) (h' : Reads g text r') : r = r' := by
  induction h generalizing r' with
  | empty =>
    cases h'
    rfl
  | one kind =>
    cases h' with
    | one => rfl
    | one_other other => simp [kind] at other
  | one_other kind =>
    cases h' with
    | one other => simp [kind] at other
    | one_other => rfl
  | one_end =>
    cases h'
    rfl
  | seq first second ih ih' =>
    cases h' with
    | seq first' second' =>
      cases ih first'
      cases ih' second'
      rfl
    | seq_first first' => cases ih first'
    | seq_second first' second' =>
      cases ih first'
      cases ih' second'
  | seq_first first ih =>
    cases h' with
    | seq first' _ => cases ih first'
    | seq_first => rfl
    | seq_second => rfl
  | seq_second first second ih ih' =>
    cases h' with
    | seq first' second' =>
      cases ih first'
      cases ih' second'
    | seq_first => rfl
    | seq_second => rfl
  | choice_first first ih =>
    cases h' with
    | choice_first first' => exact ih first'
    | choice_second first' _ => cases ih first'
  | choice_second first second ih ih' =>
    cases h' with
    | choice_first first' => cases ih first'
    | choice_second _ second' => exact ih' second'
  | many_end first ih =>
    cases h' with
    | many_end => rfl
    | many first' _ => cases ih first'
  | many first others ih ih' =>
    cases h' with
    | many_end first' => cases ih first'
    | many first' others' =>
      cases ih first'
      cases ih' others'
      rfl
  | absent first ih =>
    cases h' with
    | absent => rfl
    | absent_not first' => cases ih first'
  | absent_not first ih =>
    cases h' with
    | absent first' => cases ih first'
    | absent_not => rfl
  | token split first ih =>
    cases h' with
    | token split' first' =>
      cases ih first'
      rw [List.append_cancel_right (split.symm.trans split')]
    | token_none first' => cases ih first'
  | token_none first ih =>
    cases h' with
    | token _ first' => cases ih first'
    | token_none => rfl

/-! ### Characters -/

variable {text rest : List Char} {c : Char}

theorem reads_char (c : Char) (rest : List Char) : Reads (char c) (c :: rest) (some ([], rest)) :=
  .one (beq_self_eq_true c)

theorem reads_char_none {c : Char} (h : text.head? ≠ some c) : Reads (char c) text none := by
  cases text with
  | nil => exact .one_end
  | cons d rest =>
    have hne : d ≠ c := fun heq => h (congrArg some heq)
    exact .one_other (beq_false_of_ne hne)

theorem reads_any (c : Char) (rest : List Char) : Reads any (c :: rest) (some ([], rest)) :=
  .one rfl

theorem reads_many_one (p : Char → Bool) (text : List Char) :
    Reads (many (one p)) text (some ([], text.dropWhile p)) := by
  induction text with
  | nil => exact .many_end .one_end
  | cons c rest ih =>
    cases hc : p c with
    | true =>
      rw [List.dropWhile_cons_of_pos hc]
      exact .many (.one hc) ih
    | false =>
      rw [List.dropWhile_cons_of_neg (by simp [hc])]
      exact .many_end (.one_other hc)

/-! ### Ends of lines -/

theorem reads_lineEnd_none (h : ∀ c ∈ text.head?, isLineEnd c = false) :
    Reads lineEnd text none := by
  have hnot : ∀ c, isLineEnd c = true → text.head? ≠ some c := by
    intro c hc hhead
    rw [h c hhead] at hc
    cases hc
  have hfeed := hnot '\n' rfl
  have hreturn := hnot '\r' rfl
  exact .choice_second (reads_char_none hfeed)
    (.choice_second (.seq_first (reads_char_none hreturn)) (reads_char_none hreturn))

/-- What follows the end of a line.  A carriage return and the line feed behind it are one end. -/
def afterLineEnd : List Char → List Char
  | '\r' :: '\n' :: rest => rest
  | _ :: rest => rest
  | [] => []

theorem reads_lineEnd (h : isLineEnd c = true) (rest : List Char) :
    Reads lineEnd (c :: rest) (some ([], afterLineEnd (c :: rest))) := by
  have hc : c = '\n' ∨ c = '\r' := by simpa [isLineEnd] using h
  rcases hc with rfl | rfl
  · exact .choice_first (reads_char '\n' rest)
  · have hfeed : Reads (char '\n') ('\r' :: rest) none := reads_char_none (by simp)
    have hreturn := reads_char '\r' rest
    refine .choice_second hfeed ?_
    by_cases hpair : rest.head? = some '\n'
    · obtain ⟨tail, rfl⟩ := List.head?_eq_some_iff.mp hpair
      exact .choice_first (.seq hreturn (reads_char '\n' tail))
    · have hafter : afterLineEnd ('\r' :: rest) = rest := by
        cases rest with
        | nil => rfl
        | cons d tail =>
          have hd : d ≠ '\n' := fun heq => hpair (congrArg some heq)
          simp [afterLineEnd, hd]
      rw [hafter]
      exact .choice_second (.seq_second hreturn (reads_char_none hpair)) hreturn

theorem reads_optional_lineEnd (h : ∀ c ∈ text.head?, isLineEnd c = true) :
    Reads (optional lineEnd) text (some ([], afterLineEnd text)) := by
  cases text with
  | nil => exact .choice_second (reads_lineEnd_none (by simp)) .empty
  | cons c rest => exact .choice_first (reads_lineEnd (h c rfl) rest)

/-! ### Comments and blanks -/

theorem reads_line (text : List Char) :
    Reads (many (seq (absent lineEnd) any)) text (some ([], text.dropWhile (! isLineEnd ·))) := by
  induction text with
  | nil => exact .many_end (.seq_second (.absent (reads_lineEnd_none (by simp))) .one_end)
  | cons c rest ih =>
    cases hc : isLineEnd c with
    | true =>
      rw [List.dropWhile_cons_of_neg (by simp [hc])]
      exact .many_end (.seq_first (.absent_not (reads_lineEnd hc rest)))
    | false =>
      rw [List.dropWhile_cons_of_pos (by simp [hc])]
      have hnone : Reads lineEnd (c :: rest) none := reads_lineEnd_none (by simpa using hc)
      exact .many (.seq (.absent hnone) (reads_any c rest)) ih

theorem reads_comment (rest : List Char) :
    Reads comment ('%' :: rest) (some ([], afterComment rest)) := by
  have hstop : ∀ c ∈ (rest.dropWhile (! isLineEnd ·)).head?, isLineEnd c = true := by
    intro c hc
    have hhead := List.head?_dropWhile_not (! isLineEnd ·) rest
    rw [Option.mem_def.mp hc] at hhead
    simpa using hhead
  exact .seq (reads_char '%' rest) (.seq (reads_line rest) (reads_optional_lineEnd hstop))

theorem reads_comment_none (h : c ≠ '%') (rest : List Char) : Reads comment (c :: rest) none :=
  .seq_first (reads_char_none (by simpa using h))

theorem reads_blank_none (h : isSourceBlank c = false) (rest : List Char) :
    Reads blank (c :: rest) none := by
  simp only [isSourceBlank, Bool.or_eq_false_iff, beq_eq_false_iff_ne] at h
  obtain ⟨⟨⟨hspace, htab⟩, hfeed⟩, hreturn⟩ := h
  have hend : Reads lineEnd (c :: rest) none :=
    reads_lineEnd_none (by simp [isLineEnd, hfeed, hreturn])
  exact .choice_second (reads_char_none (by simpa using hspace))
    (.choice_second (reads_char_none (by simpa using htab)) hend)

/-- A blank is taken, and what it leaves has the same text behind its blanks. -/
theorem exists_reads_blank (h : isSourceBlank c = true) (rest : List Char) :
    ∃ left, Reads blank (c :: rest) (some ([], left)) ∧ left.length ≤ rest.length ∧
      left.dropWhile isSourceBlank = rest.dropWhile isSourceBlank := by
  have hc : c = ' ' ∨ c = '\t' ∨ isLineEnd c = true := by
    simpa [isSourceBlank, isLineEnd, or_assoc] using h
  rcases hc with rfl | rfl | hend
  · exact ⟨rest, .choice_first (reads_char ' ' rest), Nat.le_refl _, rfl⟩
  · have hspace : Reads (char ' ') ('\t' :: rest) none := reads_char_none (by simp)
    exact ⟨rest, .choice_second hspace (.choice_first (reads_char '\t' rest)), Nat.le_refl _, rfl⟩
  · have hspace : Reads (char ' ') (c :: rest) none := by
      apply reads_char_none
      rintro ⟨rfl⟩
      cases hend
    have htab : Reads (char '\t') (c :: rest) none := by
      apply reads_char_none
      rintro ⟨rfl⟩
      cases hend
    refine ⟨_, .choice_second hspace (.choice_second htab (reads_lineEnd hend rest)), ?_⟩
    unfold afterLineEnd
    split
    · rename_i heq
      cases heq
      exact ⟨by simp, rfl⟩
    · rename_i heq
      cases heq
      exact ⟨Nat.le_refl _, rfl⟩
    · rename_i heq
      cases heq

theorem reads_many_blank (text : List Char) :
    Reads (many blank) text (some ([], text.dropWhile isSourceBlank)) := by
  match text with
  | [] =>
    have hend : Reads lineEnd [] none := reads_lineEnd_none (by simp)
    exact .many_end (.choice_second .one_end (.choice_second .one_end hend))
  | c :: rest =>
    cases hc : isSourceBlank c with
    | true =>
      obtain ⟨left, hfirst, hshorter, hsame⟩ := exists_reads_blank hc rest
      rw [List.dropWhile_cons_of_pos hc, ← hsame]
      exact .many hfirst (reads_many_blank left)
    | false =>
      rw [List.dropWhile_cons_of_neg (by simp [hc])]
      exact .many_end (reads_blank_none hc rest)
termination_by text.length
decreasing_by
  simp only [List.length_cons]
  omega

theorem reads_space (h : isSourceBlank c = true) (rest : List Char) :
    Reads space (c :: rest) (some ([.space], rest.dropWhile isSourceBlank)) := by
  obtain ⟨left, hfirst, -, hsame⟩ := exists_reads_blank h rest
  have hothers := reads_many_blank left
  rw [hsame] at hothers
  have hsplit :
      c :: rest = (c :: rest.takeWhile isSourceBlank) ++ rest.dropWhile isSourceBlank := by
    rw [List.cons_append, List.takeWhile_append_dropWhile]
  exact .token hsplit (.seq hfirst hothers)

theorem reads_space_none (h : isSourceBlank c = false) (rest : List Char) :
    Reads space (c :: rest) none := .token_none (.seq_first (reads_blank_none h rest))

/-! ### Commands and characters -/

theorem reads_command_word (h : c.isAlpha = true) (rest : List Char) :
    Reads command ('\\' :: c :: rest)
      (some ([.command (String.ofList ('\\' :: c :: rest.takeWhile Char.isAlpha))],
        rest.dropWhile Char.isAlpha)) := by
  have hsplit : '\\' :: c :: rest =
      ('\\' :: c :: rest.takeWhile Char.isAlpha) ++ rest.dropWhile Char.isAlpha := by
    rw [List.cons_append, List.cons_append, List.takeWhile_append_dropWhile]
  exact .token hsplit
    (.seq (reads_char '\\' _) (.choice_first (.seq (.one h) (reads_many_one Char.isAlpha rest))))

theorem reads_command_sign (h : c.isAlpha = false) (rest : List Char) :
    Reads command ('\\' :: c :: rest)
      (some ([.command (String.ofList ['\\', c])], rest)) := by
  have hsplit : '\\' :: c :: rest = ['\\', c] ++ rest := rfl
  exact .token hsplit
    (.seq (reads_char '\\' _) (.choice_second (.seq_first (.one_other h)) (reads_any c rest)))

theorem reads_command_none (h : c = '\\' → rest = []) : Reads command (c :: rest) none := by
  by_cases hc : c = '\\'
  · subst hc
    rw [h rfl]
    exact .token_none
      (.seq_second (reads_char '\\' []) (.choice_second (.seq_first .one_end) .one_end))
  · exact .token_none (.seq_first (reads_char_none (by simpa using hc)))

theorem reads_groupStart (rest : List Char) :
    Reads groupStart ('\x7b' :: rest) (some ([.groupStart], rest)) := by
  have hsplit : '\x7b' :: rest = ['\x7b'] ++ rest := rfl
  exact .token hsplit (reads_char '\x7b' rest)

theorem reads_groupStart_none (h : c ≠ '\x7b') (rest : List Char) :
    Reads groupStart (c :: rest) none := .token_none (reads_char_none (by simpa using h))

theorem reads_groupEnd (rest : List Char) :
    Reads groupEnd ('\x7d' :: rest) (some ([.groupEnd], rest)) := by
  have hsplit : '\x7d' :: rest = ['\x7d'] ++ rest := rfl
  exact .token hsplit (reads_char '\x7d' rest)

theorem reads_groupEnd_none (h : c ≠ '\x7d') (rest : List Char) :
    Reads groupEnd (c :: rest) none := .token_none (reads_char_none (by simpa using h))

theorem reads_character (c : Char) (rest : List Char) :
    Reads character (c :: rest) (some ([.char c], rest)) := by
  have hsplit : c :: rest = [c] ++ rest := rfl
  exact .token hsplit (reads_any c rest)

/-! ### The whole source -/

theorem reads_item_nil : Reads item [] none := by
  have hend : Reads lineEnd [] none := reads_lineEnd_none (by simp)
  have hblank : Reads blank [] none := .choice_second .one_end (.choice_second .one_end hend)
  exact .choice_second (.seq_first .one_end)
    (.choice_second (.token_none (.seq_first hblank))
      (.choice_second (.token_none (.seq_first .one_end))
        (.choice_second (.token_none .one_end)
          (.choice_second (.token_none .one_end) (.token_none .one_end)))))

theorem reads_item_comment (rest : List Char) :
    Reads item ('%' :: rest) (some ([], afterComment rest)) := .choice_first (reads_comment rest)

theorem reads_item_space (h : isSourceBlank c = true) (rest : List Char) :
    Reads item (c :: rest) (some ([.space], rest.dropWhile isSourceBlank)) := by
  have hc : c ≠ '%' := by
    rintro rfl
    cases h
  exact .choice_second (reads_comment_none hc rest) (.choice_first (reads_space h rest))

theorem reads_item_command {result : List Token × List Char}
    (h : Reads command ('\\' :: rest) (some result)) : Reads item ('\\' :: rest) (some result) :=
  .choice_second (reads_comment_none (by decide) rest)
    (.choice_second (reads_space_none rfl rest) (.choice_first h))

/-- What starts neither a comment nor a command and is no blank is a brace or a character. -/
theorem reads_item_sign (hpercent : c ≠ '%') (hblank : isSourceBlank c = false)
    (hcommand : c = '\\' → rest = []) {result : List Token × List Char}
    (h : Reads (choice groupStart (choice groupEnd character)) (c :: rest) (some result)) :
    Reads item (c :: rest) (some result) :=
  .choice_second (reads_comment_none hpercent rest)
    (.choice_second (reads_space_none hblank rest)
      (.choice_second (reads_command_none hcommand) h))

theorem reads_sign_character (hopen : c ≠ '\x7b') (hclose : c ≠ '\x7d') (rest : List Char) :
    Reads (choice groupStart (choice groupEnd character)) (c :: rest) (some ([.char c], rest)) :=
  .choice_second (reads_groupStart_none hopen rest)
    (.choice_second (reads_groupEnd_none hclose rest) (reads_character c rest))

/-- The grammar takes the tokens of a text one after the other. -/
theorem reads_items (text : List Char) : Reads (many item) text (some (scan text, [])) := by
  fun_induction scan text with
  | case1 => exact .many_end reads_item_nil
  | case2 rest ih => exact .many (reads_item_comment rest) ih
  | case3 c rest hpercent hblank ih => exact .many (reads_item_space hblank rest) ih
  | case4 hpercent hblank =>
    have hsign := reads_sign_character (c := '\\') (by decide) (by decide) []
    exact .many (reads_item_sign hpercent rfl (fun _ => rfl) hsign) (.many_end reads_item_nil)
  | case5 d more hd hpercent hblank ih =>
    exact .many (reads_item_command (reads_command_word hd more)) ih
  | case6 d more hd hpercent hblank ih =>
    exact .many (reads_item_command (reads_command_sign (by simpa using hd) more)) ih
  | case7 rest hpercent hblank hcommand ih =>
    have hsign := reads_groupStart rest
    exact .many (reads_item_sign hpercent rfl (fun heq => absurd heq hcommand)
      (.choice_first hsign)) ih
  | case8 rest hpercent hblank hcommand hopen ih =>
    have hsign := reads_groupEnd rest
    exact .many (reads_item_sign hpercent rfl (fun heq => absurd heq hcommand)
      (.choice_second (reads_groupStart_none hopen rest) (.choice_first hsign))) ih
  | case9 c rest hpercent hblank hcommand hopen hclose ih =>
    have hsign := reads_sign_character hopen hclose rest
    have hplain : isSourceBlank c = false := by simpa using hblank
    exact .many (reads_item_sign hpercent hplain (fun heq => absurd heq hcommand) hsign) ih

/-- **Every text is a source, with the tokens of its scan and no others.** -/
theorem reads_source_iff {text : List Char} {result : Option (List Token × List Char)} :
    Reads source text result ↔ result = some (scan text, []) := by
  have hreads : Reads source text (some (scan text, [])) := by
    have hall := Reads.seq (reads_items text) (.absent (a := any) .one_end)
    rwa [List.append_nil] at hall
  constructor
  · intro h
    exact h.unique hreads
  · rintro rfl
    exact hreads

end Grammar

end Formula.Token
