import Formula.Proofs.Token.Canonical

/-!
  **Fragments of LaTeX do not fuse.**

  `join` looks back at all that is written so far and ahead at one piece, whereas the scan goes from
  left to right and takes the longest command.  They agree on where two pieces would run together.
  A text is `Separable` if it has its tokens in front of anything that `append` puts behind it;
  blanks are left out of the account, for where a blank is put in two may become one.  Separable
  texts stay so under `append`, empty pieces included.

  Just two kinds of text are not separable.  A comment takes in what follows it, and a lone
  backslash at the end takes the next character for the name of a command.  In the text of tokens a
  percent sign stands only behind a backslash, and a lone backslash only at the end.
-/

namespace Formula.Latex

open Token (scan isSourceBlank)

/-- The tokens without the blanks among them. -/
def visible (tokens : List Token) : List Token := tokens.filter (! ·.isSpace)

/-- In front of a text, but for a letter behind a command, the text has these tokens and maybe
    blanks. -/
def Separable (text : List Char) (tokens : List Token) : Prop :=
  ∀ after, (endsWithCommand text = true → startsWithLetter after = false) →
    visible (scan (text ++ after)) = tokens ++ visible (scan after)

theorem visible_cons (t : Token) (tokens : List Token) :
    visible (t :: tokens) = visible [t] ++ visible tokens :=
  List.filter_append [t] tokens

/-! ### Ends of texts -/

theorem slash_mem_of_endsWithCommand {text : List Char} (h : endsWithCommand text = true) :
    '\\' ∈ text := by
  rw [endsWithCommand, Bool.and_eq_true, beq_iff_eq] at h
  exact List.mem_reverse.mp ((List.dropWhile_sublist _).mem (List.mem_of_mem_head? h.2))

/-- More text in front does not hide a command at the end. -/
theorem endsWithCommand_of_append (before : List Char) {text : List Char}
    (h : endsWithCommand text = true) : endsWithCommand (before ++ text) = true := by
  rw [endsWithCommand_append before ⟨'\\', slash_mem_of_endsWithCommand h, by decide⟩]
  exact h

/-- A single character is no command. -/
theorem endsWithCommand_singleton (c : Char) : endsWithCommand [c] = false := by
  by_cases hc : c.isAlpha = true
  · simp [endsWithCommand, hc]
  · simp [endsWithCommand, hc]

theorem endsWithCommand_of_isWord {t : Token} (h : t.IsWord) : endsWithCommand t.toList = true := by
  obtain ⟨letters, ne, alpha, rfl⟩ := h
  rw [Token.toList, String.toList_ofList]
  exact endsWithCommand_command ne alpha

/-- Of the tokens of a text only a command of letters ends like one. -/
theorem isWord_of_endsWithCommand {t : Token} (h : t.Formed)
    (hends : endsWithCommand t.toList = true) : t.IsWord := by
  cases h with
  | @word letters ne alpha => exact ⟨letters, ne, alpha, rfl⟩
  | sign c =>
    by_cases hc : c.isAlpha = true
    · exact ⟨[c], List.cons_ne_nil c [], by simpa using hc, rfl⟩
    · rw [Token.toList, String.toList_ofList] at hends
      simp [endsWithCommand, hc] at hends
  | _ => simp [Token.toList, endsWithCommand_singleton] at hends

/-! ### Separable texts -/

theorem visible_scan_blank {c : Char} (hc : isSourceBlank c = true) (text : List Char) :
    visible (scan (c :: text)) = visible (scan text) := by
  have hpass : ∀ {d : Char} (rest : List Char), isSourceBlank d = true →
      visible (scan (d :: rest)) = visible (scan (rest.dropWhile isSourceBlank)) := by
    intro d rest hd
    have hpercent : d ≠ '%' := by
      rintro rfl
      cases hd
    rw [scan.eq_def]
    simp only [hpercent, hd, if_true, if_false]
    rfl
  rw [hpass text hc]
  cases text with
  | nil => rfl
  | cons d rest =>
    by_cases hd : isSourceBlank d = true
    · rw [List.dropWhile_cons_of_pos hd, hpass rest hd]
    · rw [List.dropWhile_cons_of_neg hd]

theorem separable_nil : Separable [] [] := by
  intro after _
  rfl

theorem separable_blanks {text : List Char} (h : ∀ c ∈ text, isSourceBlank c = true) :
    Separable text [] := by
  rintro after -
  induction text with
  | nil => rfl
  | cons c text ih =>
    obtain ⟨hc, htext⟩ := List.forall_mem_cons.mp h
    rw [List.cons_append, visible_scan_blank hc]
    exact ih htext

/-- A token in order that is no lone backslash. -/
theorem separable_token {t : Token} (h : t.Formed) (hlone : t ≠ .char '\\') :
    Separable t.toList (visible [t]) := by
  intro after hafter
  by_cases hspace : t = .space
  · rw [hspace]
    exact visible_scan_blank rfl after
  · have hword : t.IsWord → startsWithLetter after = false := fun h =>
      hafter (endsWithCommand_of_isWord h)
    rw [h.scan_append hlone hword fun heq => absurd heq hspace]
    exact visible_cons t (scan after)

/-- One behind the other, two separable texts are so if they do not fuse. -/
theorem Separable.beside {text piece : List Char} {tokens tokens' : List Token}
    (h : Separable text tokens) (h' : Separable piece tokens')
    (hapart : endsWithCommand text = true → startsWithLetter piece = false) :
    Separable (text ++ piece) (tokens ++ tokens') := by
  intro after hafter
  have hpiece : endsWithCommand text = true → startsWithLetter (piece ++ after) = false := by
    intro hends
    cases piece with
    | nil => exact hafter (by rwa [List.append_nil])
    | cons c piece => exact hapart hends
  have hlast : endsWithCommand piece = true → startsWithLetter after = false := fun hends =>
    hafter (endsWithCommand_of_append text hends)
  rw [List.append_assoc, h _ hpiece, h' _ hlast, List.append_assoc]

theorem separable_cons {t : Token} {rest : List Char} (h : t.Formed) (hlone : t ≠ .char '\\')
    (hword : t.IsWord → startsWithLetter rest = false)
    (hrest : Separable rest (visible (scan rest))) :
    Separable (t.toList ++ rest) (visible (t :: scan rest)) := by
  rw [visible_cons]
  exact (separable_token h hlone).beside hrest fun hends =>
    hword (isWord_of_endsWithCommand h hends)

/-- **Without a comment or a lone backslash at its end, a text is separable.** -/
theorem separable_scan {text : List Char} (hpercent : '%' ∉ text)
    (hlone : (scan text).getLast? ≠ some (.char '\\')) : Separable text (visible (scan text)) := by
  have hlater : ∀ {t : Token} {tokens : List Token},
      (t :: tokens).getLast? ≠ some (.char '\\') → tokens.getLast? ≠ some (.char '\\') := by
    intro t tokens h heq
    rw [List.getLast?_cons, heq] at h
    exact h rfl
  revert hpercent hlone
  fun_induction scan text with
  | case1 => exact fun _ _ => separable_nil
  | case2 rest ih => exact fun h => absurd List.mem_cons_self h
  | case3 c rest hpercent hblank ih =>
    intro h hlone
    have hsplit : c :: rest =
        (c :: rest.takeWhile isSourceBlank) ++ rest.dropWhile isSourceBlank := by
      rw [List.cons_append, List.takeWhile_append_dropWhile]
    have hblanks : ∀ d ∈ c :: rest.takeWhile isSourceBlank, isSourceBlank d = true :=
      List.forall_mem_cons.mpr ⟨hblank, fun d hd => List.mem_takeWhile_imp hd⟩
    have hnone : endsWithCommand (c :: rest.takeWhile isSourceBlank) = true →
        startsWithLetter (rest.dropWhile isSourceBlank) = false := by
      intro hends
      cases hblanks '\\' (slash_mem_of_endsWithCommand hends)
    rw [hsplit]
    refine (separable_blanks hblanks).beside (ih ?_ (hlater hlone)) hnone
    exact fun hmem => h (List.mem_cons_of_mem c ((List.dropWhile_sublist _).mem hmem))
  | case4 hpercent hblank => exact fun _ h => absurd rfl h
  | case5 d more hd hpercent hblank ih =>
    intro h hlone
    have hword : ∀ c ∈ d :: more.takeWhile Char.isAlpha, c.isAlpha = true :=
      List.forall_mem_cons.mpr ⟨hd, fun c hc => List.mem_takeWhile_imp hc⟩
    have hsplit : '\\' :: d :: more = (Token.command (String.ofList
        ('\\' :: d :: more.takeWhile Char.isAlpha))).toList ++ more.dropWhile Char.isAlpha := by
      simp [Token.toList]
    rw [hsplit]
    refine separable_cons (.word (List.cons_ne_nil d _) hword) (by simp)
      (fun _ => Token.any_head?_dropWhile Char.isAlpha more) (ih ?_ (hlater hlone))
    exact fun hmem => h (List.mem_cons_of_mem _
      (List.mem_cons_of_mem d ((List.dropWhile_sublist _).mem hmem)))
  | case6 d more hd hpercent hblank ih =>
    intro h hlone
    have hrest : '%' ∉ more := fun hmem => h (List.mem_cons_of_mem _ (List.mem_cons_of_mem d hmem))
    have hsign := Token.not_isWord_sign (c := d) (by simpa using hd)
    have hsplit : '\\' :: d :: more =
        (Token.command (String.ofList ['\\', d])).toList ++ more := by
      simp [Token.toList]
    rw [hsplit]
    exact separable_cons (.sign d) (by simp) (fun hword => absurd hword hsign)
      (ih hrest (hlater hlone))
  | case7 rest hpercent hblank hcommand ih =>
    intro h hlone
    exact separable_cons .groupStart (by simp) (by simp [Token.IsWord])
      (ih (fun hmem => h (List.mem_cons_of_mem _ hmem)) (hlater hlone))
  | case8 rest hpercent hblank hcommand hopen ih =>
    intro h hlone
    exact separable_cons .groupEnd (by simp) (by simp [Token.IsWord])
      (ih (fun hmem => h (List.mem_cons_of_mem _ hmem)) (hlater hlone))
  | case9 c rest hpercent hblank hcommand hopen hclose ih =>
    intro h hlone
    have hformed := Token.formed_char hpercent (by simpa using hblank) hopen hclose
    exact separable_cons hformed (by simpa using hcommand) (by simp [Token.IsWord])
      (ih (fun hmem => h (List.mem_cons_of_mem c hmem)) (hlater hlone))

/-! ### Pieces side by side -/

/-- Whatever is put behind a separable text keeps its tokens. -/
theorem Separable.visible_append {text : List Char} {tokens : List Token}
    (h : Separable text tokens) (piece : List Char) :
    visible (scan (append text piece)) = tokens ++ visible (scan piece) := by
  rw [append]
  split
  · rw [h _ fun _ => rfl, visible_scan_blank rfl]
  · rename_i hgap
    refine h piece fun hends => ?_
    rw [hends, Bool.and_true, Bool.not_eq_true] at hgap
    exact hgap

/-- **Separable texts stay so when they are put together.** -/
theorem Separable.append {text piece : List Char} {tokens tokens' : List Token}
    (h : Separable text tokens) (h' : Separable piece tokens') :
    Separable (Latex.append text piece) (tokens ++ tokens') := by
  rw [Latex.append]
  split
  · have hblank : Separable [' '] [] := separable_blanks (List.forall_mem_singleton.mpr rfl)
    have hafter : Separable ([' '] ++ piece) ([] ++ tokens') :=
      hblank.beside h' (by simp [endsWithCommand_singleton])
    exact h.beside hafter fun _ => rfl
  · rename_i hgap
    refine h.beside h' fun hends => ?_
    rw [hends, Bool.and_true, Bool.not_eq_true] at hgap
    exact hgap

theorem foldl_append_nil {pieces : List (List Char)} (h : ∀ piece ∈ pieces, piece = [])
    (text : List Char) : pieces.foldl Latex.append text = text := by
  induction pieces with
  | nil => rfl
  | cons piece pieces ih =>
    obtain ⟨rfl, hpieces⟩ := List.forall_mem_cons.mp h
    rw [List.foldl_cons, append_of_start rfl, List.append_nil]
    exact ih hpieces

/-- Pieces have their tokens one after the other, if each is separable that is not the last but for
    empty ones. -/
theorem visible_scan_foldl {text : List Char} {tokens : List Token} (h : Separable text tokens)
    {pieces : List (List Char)}
    (hpieces : pieces.Pairwise fun piece later =>
      later ≠ [] → Separable piece (visible (scan piece))) :
    visible (scan (pieces.foldl Latex.append text)) =
      tokens ++ pieces.flatMap fun piece => visible (scan piece) := by
  induction pieces generalizing text tokens with
  | nil =>
    have htext := h [] fun _ => rfl
    rw [List.append_nil, scan_nil] at htext
    exact htext
  | cons piece pieces ih =>
    obtain ⟨hpiece, hlater⟩ := List.pairwise_cons.mp hpieces
    rw [List.foldl_cons, List.flatMap_cons]
    by_cases hempty : ∀ later ∈ pieces, later = []
    · have hnone : (pieces.flatMap fun piece => visible (scan piece)) = [] := by
        rw [List.flatMap_eq_nil_iff]
        intro later hmem
        rw [hempty later hmem, scan_nil]
        rfl
      rw [foldl_append_nil hempty, hnone, List.append_nil]
      exact h.visible_append piece
    · obtain ⟨later, hmem, hne⟩ : ∃ later ∈ pieces, later ≠ [] := by simpa using hempty
      rw [ih (h.append (hpiece later hmem hne)) hlater, List.append_assoc]

/-! ### Fragments and the source of tokens -/

theorem visible_scan_toList {t : Token} (h : t.Formed) : visible (scan t.toList) = visible [t] := by
  by_cases hlone : t = .char '\\'
  · rw [hlone]
    simp [Token.toList, scan, isSourceBlank]
  · have htext := separable_token h hlone [] fun _ => rfl
    rw [List.append_nil, scan_nil] at htext
    rw [htext]
    exact List.append_nil _

theorem pairwise_separable {tokens : List Token} (h : Token.Lexical tokens) :
    (tokens.map Token.toList).Pairwise fun piece later =>
      later ≠ [] → Separable piece (visible (scan piece)) := by
  induction tokens with
  | nil => exact .nil
  | cons t tokens ih =>
    obtain ⟨hformed, hlast, htokens⟩ := Token.lexical_cons.mp h
    refine List.pairwise_cons.mpr ⟨fun later hlater _ => ?_, ih htokens⟩
    have hlone : t ≠ .char '\\' := by
      intro heq
      rw [hlast heq] at hlater
      cases hlater
    rw [visible_scan_toList hformed]
    exact separable_token hformed hlone

theorem flatMap_visible {tokens : List Token} (h : ∀ t ∈ tokens, t.Formed) :
    ((tokens.map Token.toList).flatMap fun piece => visible (scan piece)) = visible tokens := by
  induction tokens with
  | nil => rfl
  | cons t tokens ih =>
    obtain ⟨ht, htokens⟩ := List.forall_mem_cons.mp h
    rw [List.map_cons, List.flatMap_cons, ih htokens, visible_scan_toList ht, ← visible_cons]

/-- **Joining never fuses fragments.**  Up to blanks, fragments without a percent sign have together
    the tokens that they have one by one, if none but the last that is not empty ends in a lone
    backslash; and every text, comments and escaped percent signs included, has the tokens of the
    source that is written for them. -/
theorem tokenize_join :
    (∀ fragments : List String, (∀ f ∈ fragments, '%' ∉ f.toList) →
      (fragments.Pairwise fun f later =>
        later ≠ "" → (tokenize f).getLast? ≠ some (.char '\\')) →
      visible (tokenize (join fragments)) = fragments.flatMap fun f => visible (tokenize f)) ∧
    ∀ latex : String,
      visible (tokenize (ofTokens (tokenize latex))) = visible (tokenize latex) := by
  constructor
  · intro fragments hpercent hlone
    have hpieces : (fragments.map String.toList).Pairwise fun piece later =>
        later ≠ [] → Separable piece (visible (scan piece)) := by
      rw [List.pairwise_map]
      refine hlone.imp_of_mem fun {f later} hf _ hlast hne => ?_
      exact separable_scan (hpercent f hf) (hlast (by simpa using hne))
    have hjoined := visible_scan_foldl separable_nil hpieces
    rw [List.nil_append, List.flatMap_map] at hjoined
    rw [join, tokenize, String.toList_ofList, joinChars]
    exact hjoined
  · intro latex
    have hlexical : Token.Lexical (tokenize latex) := Token.lexical_scan latex.toList
    have hwritten := visible_scan_foldl separable_nil (pairwise_separable hlexical)
    rw [List.nil_append, flatMap_visible hlexical.formed] at hwritten
    rw [ofTokens, tokenize, String.toList_ofList, joinChars]
    exact hwritten

/-- An empty fragment between a command and a letter, and a lone backslash with nothing but an empty
    fragment behind it; an escaped percent sign, and one that starts a comment. -/
theorem tokenize_join_backslashes :
    (∀ f ∈ ["\\left\\lbrace", "", "a\t,", "b\\", ""], '%' ∉ f.toList) ∧
    (["\\left\\lbrace", "", "a\t,", "b\\", ""].Pairwise fun f later =>
      later ≠ "" → (tokenize f).getLast? ≠ some (.char '\\')) ∧
    visible (tokenize (join ["\\left\\lbrace", "", "a\t,", "b\\", ""])) =
      [.command "\\left", .command "\\lbrace", .char 'a', .char ',', .char 'b', .char '\\'] ∧
    visible (tokenize (ofTokens (tokenize "\\%a\\pi% b\n c"))) =
      [.command "\\%", .char 'a', .command "\\pi", .char 'c'] := by
  have hpercent : ∀ f ∈ ["\\left\\lbrace", "", "a\t,", "b\\", ""], '%' ∉ f.toList := by decide
  have hlone : ["\\left\\lbrace", "", "a\t,", "b\\", ""].Pairwise fun f later =>
      later ≠ "" → (tokenize f).getLast? ≠ some (.char '\\') := by
    decide +kernel
  refine ⟨hpercent, hlone, ?_, ?_⟩
  · rw [tokenize_join.1 _ hpercent hlone]
    decide +kernel
  · rw [tokenize_join.2]
    decide +kernel

end Formula.Latex
