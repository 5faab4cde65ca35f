import Formula.Proofs.Latex.Pieces
import Formula.Proofs.Token.Grammar
import Mathlib.Data.List.Chain

/-!
  **The image of tokenization.**

  Not every list of tokens is that of a text.  A command has a name that the scan can read, a
  character has no meaning of its own, and a lone backslash ends the text.  Without comments two
  blanks never stand side by side, and no letter stands behind a command of letters.  On the lists
  that meet all this, the canonical ones, the scan undoes writing token after token.
-/

namespace Formula

namespace Token

/-- A command of letters. -/
def IsWord (t : Token) : Prop :=
  ∃ letters, letters ≠ [] ∧ (∀ c ∈ letters, c.isAlpha = true) ∧
    t = .command (String.ofList ('\\' :: letters))

/-- A character that is an ASCII letter. -/
def isLetter : Token → Bool
  | .char c => c.isAlpha
  | _ => false

/-- The token can stand in the tokens of a text. -/
inductive Formed : Token → Prop where
  | word {letters : List Char} (ne : letters ≠ []) (alpha : ∀ c ∈ letters, c.isAlpha = true) :
      Formed (.command (String.ofList ('\\' :: letters)))
  | sign (c : Char) : Formed (.command (String.ofList ['\\', c]))
  | groupStart : Formed .groupStart
  | groupEnd : Formed .groupEnd
  | space : Formed .space
  | char {c : Char} (plain : c ∉ ['\x7b', '\x7d', '%', ' ', '\t', '\r', '\n']) : Formed (.char c)

/-- The second token may stand behind the first. -/
def Apart (t u : Token) : Prop :=
  ¬ (t = .space ∧ u = .space) ∧ (t.IsWord → u.isLetter = false)

/-- Tokens that can stand in the tokens of a text, with nothing behind a lone backslash. -/
structure Lexical (tokens : List Token) : Prop where
  formed : ∀ t ∈ tokens, t.Formed
  lone : tokens.IsChain fun t _ => t ≠ .char '\\'

/-- Moreover, no blank stands behind a blank and no letter behind a command of letters. -/
structure Canonical (tokens : List Token) : Prop extends Lexical tokens where
  apart : tokens.IsChain Apart

variable {t u : Token} {tokens : List Token}

theorem lexical_cons :
    Lexical (t :: tokens) ↔ t.Formed ∧ (t = .char '\\' → tokens = []) ∧ Lexical tokens := by
  constructor
  · rintro ⟨hformed, hlone⟩
    obtain ⟨ht, htokens⟩ := List.forall_mem_cons.mp hformed
    refine ⟨ht, ?_, htokens, hlone.tail⟩
    rintro rfl
    cases tokens with
    | nil => rfl
    | cons u tokens => exact absurd rfl (List.isChain_cons_cons.mp hlone).1
  · rintro ⟨ht, hlast, hformed, hlone⟩
    refine ⟨List.forall_mem_cons.mpr ⟨ht, hformed⟩, ?_⟩
    cases tokens with
    | nil => exact .singleton t
    | cons u tokens => exact .cons_cons (fun heq => nomatch hlast heq) hlone

theorem Canonical.left_of_append {after : List Token} (h : Canonical (tokens ++ after)) :
    Canonical tokens where
  formed t ht := h.formed t (List.mem_append_left after ht)
  lone := h.lone.left_of_append
  apart := h.apart.left_of_append

/-! ### What is scanned is canonical -/

theorem formed_char {c : Char} (hpercent : c ≠ '%') (hblank : isSourceBlank c = false)
    (hopen : c ≠ '\x7b') (hclose : c ≠ '\x7d') : Formed (.char c) := by
  simp only [isSourceBlank, Bool.or_eq_false_iff, beq_eq_false_iff_ne] at hblank
  exact .char (by simp [hpercent, hopen, hclose, hblank])

/-- The tokens of every text are in order, whatever comments it has. -/
theorem lexical_scan (text : List Char) : Lexical (scan text) := by
  fun_induction scan text with
  | case1 => exact ⟨by simp, .nil⟩
  | case2 rest ih => exact ih
  | case3 c rest hpercent hblank ih => exact lexical_cons.mpr ⟨.space, by simp, ih⟩
  | case4 hpercent hblank =>
    have hformed : Formed (.char '\\') := formed_char hpercent rfl (by decide) (by decide)
    exact lexical_cons.mpr ⟨hformed, fun _ => rfl, by simp, .nil⟩
  | case5 d more hd hpercent hblank ih =>
    have hword : ∀ c ∈ d :: more.takeWhile Char.isAlpha, c.isAlpha = true := by
      intro c hc
      rcases List.mem_cons.mp hc with rfl | hc
      · exact hd
      · exact List.mem_takeWhile_imp hc
    exact lexical_cons.mpr ⟨.word (List.cons_ne_nil d _) hword, by simp, ih⟩
  | case6 d more hd hpercent hblank ih => exact lexical_cons.mpr ⟨.sign d, by simp, ih⟩
  | case7 rest hpercent hblank hcommand ih => exact lexical_cons.mpr ⟨.groupStart, by simp, ih⟩
  | case8 rest hpercent hblank hcommand hopen ih => exact lexical_cons.mpr ⟨.groupEnd, by simp, ih⟩
  | case9 c rest hpercent hblank hcommand hopen hclose ih =>
    have hformed := formed_char hpercent (by simpa using hblank) hopen hclose
    exact lexical_cons.mpr ⟨hformed, fun heq => absurd (Token.char.inj heq) hcommand, ih⟩

/-- The first character of a text tells whether its first token is a letter or a blank, unless the
    character starts a comment. -/
theorem of_mem_head?_scan {text : List Char} (hpercent : '%' ∉ text) (hu : u ∈ (scan text).head?) :
    u.isLetter = Latex.startsWithLetter text ∧
      (u = .space → text.head?.any isSourceBlank = true) := by
  have hletter : ∀ {c : Char}, isSourceBlank c = true → c.isAlpha = false := by
    intro c hc
    by_contra halpha
    have hnot := (Latex.ordinary_of_isAlpha (by simpa using halpha)).blank
    rw [hc] at hnot
    cases hnot
  revert hpercent hu
  fun_induction scan text with
  | case1 => simp
  | case2 rest ih => exact fun h => absurd List.mem_cons_self h
  | case3 c rest hpercent hblank ih =>
    rintro - ⟨⟩
    exact ⟨(hletter hblank).symm, fun _ => hblank⟩
  | case9 c rest hpercent hblank hcommand hopen hclose ih =>
    rintro - ⟨⟩
    refine ⟨rfl, ?_⟩
    rintro ⟨⟩
  | _ =>
    rintro - ⟨⟩
    refine ⟨rfl, ?_⟩
    rintro ⟨⟩

theorem any_head?_dropWhile (p : Char → Bool) (text : List Char) :
    (text.dropWhile p).head?.any p = false := by
  have hstop := List.head?_dropWhile_not p text
  cases hhead : (text.dropWhile p).head? with
  | none => rfl
  | some c =>
    rw [hhead] at hstop
    simpa using hstop

theorem apart_of_ne (hspace : t ≠ .space) (hword : ¬ t.IsWord) (u : Token) : t.Apart u :=
  ⟨fun h => hspace h.1, fun h => absurd h hword⟩

theorem not_isWord_sign {c : Char} (h : c.isAlpha = false) :
    ¬ IsWord (.command (String.ofList ['\\', c])) := by
  rintro ⟨letters, hne, hletters, heq⟩
  have hlist : ['\\', c] = '\\' :: letters := String.ofList_injective (Token.command.inj heq)
  obtain rfl := (List.cons.inj hlist).2
  have hc := hletters c (List.mem_singleton_self c)
  rw [h] at hc
  cases hc

/-- Without a comment no blank stands behind a blank and no letter behind a command of letters. -/
theorem apart_scan {text : List Char} (h : '%' ∉ text) : (scan text).IsChain Apart := by
  revert h
  fun_induction scan text with
  | case1 => exact fun _ => .nil
  | case2 rest ih => exact fun h => absurd List.mem_cons_self h
  | case3 c rest hpercent hblank ih =>
    intro h
    have hrest : '%' ∉ rest.dropWhile isSourceBlank := fun hmem =>
      h (List.mem_cons_of_mem c ((List.dropWhile_sublist _).mem hmem))
    refine List.isChain_cons.mpr ⟨?_, ih hrest⟩
    intro u hu
    refine ⟨?_, fun hword => absurd hword (by simp [IsWord])⟩
    rintro ⟨-, hspace⟩
    have hfirst := (of_mem_head?_scan hrest hu).2 hspace
    rw [any_head?_dropWhile] at hfirst
    cases hfirst
  | case4 hpercent hblank => exact fun _ => .singleton _
  | case5 d more hd hpercent hblank ih =>
    intro h
    have hrest : '%' ∉ more.dropWhile Char.isAlpha := fun hmem =>
      h (List.mem_cons_of_mem _ (List.mem_cons_of_mem d ((List.dropWhile_sublist _).mem hmem)))
    refine List.isChain_cons.mpr ⟨?_, ih hrest⟩
    intro u hu
    refine ⟨by simp, fun _ => ?_⟩
    rw [(of_mem_head?_scan hrest hu).1]
    exact any_head?_dropWhile Char.isAlpha more
  | case6 d more hd hpercent hblank ih =>
    intro h
    have hrest : '%' ∉ more := fun hmem =>
      h (List.mem_cons_of_mem _ (List.mem_cons_of_mem d hmem))
    have hsign := not_isWord_sign (by simpa using hd)
    exact List.isChain_cons.mpr ⟨fun u _ => apart_of_ne (by simp) hsign u, ih hrest⟩
  | case7 rest hpercent hblank hcommand ih =>
    intro h
    have hrest : '%' ∉ rest := fun hmem => h (List.mem_cons_of_mem _ hmem)
    exact List.isChain_cons.mpr ⟨fun u _ => apart_of_ne (by simp) (by simp [IsWord]) u, ih hrest⟩
  | case8 rest hpercent hblank hcommand hopen ih =>
    intro h
    have hrest : '%' ∉ rest := fun hmem => h (List.mem_cons_of_mem _ hmem)
    exact List.isChain_cons.mpr ⟨fun u _ => apart_of_ne (by simp) (by simp [IsWord]) u, ih hrest⟩
  | case9 c rest hpercent hblank hcommand hopen hclose ih =>
    intro h
    have hrest : '%' ∉ rest := fun hmem => h (List.mem_cons_of_mem c hmem)
    exact List.isChain_cons.mpr ⟨fun u _ => apart_of_ne (by simp) (by simp [IsWord]) u, ih hrest⟩

theorem canonical_scan {text : List Char} (h : '%' ∉ text) : Canonical (scan text) :=
  ⟨lexical_scan text, apart_scan h⟩

/-! ### Canonical tokens are scanned from their text -/

/-- The first character of a token tells whether the token is a letter or a blank. -/
theorem Formed.head?_append (h : t.Formed) (after : List Char) :
    Latex.startsWithLetter (t.toList ++ after) = t.isLetter ∧
      ((t.toList ++ after).head?.any isSourceBlank = true → t = .space) := by
  cases h with
  | char plain =>
    refine ⟨rfl, fun hblank => ?_⟩
    simp_all [toList, isSourceBlank]
  | _ => simp [toList, Latex.startsWithLetter, isLetter] <;> decide

theorem ordinary_of_plain {c : Char}
    (plain : c ∉ ['\x7b', '\x7d', '%', ' ', '\t', '\r', '\n']) (hc : c ≠ '\\') :
    Latex.Ordinary c := by
  simp only [List.mem_cons, not_or] at plain
  obtain ⟨hopen, hclose, hpercent, hspace, htab, hreturn, hline, -⟩ := plain
  have hblank : isSourceBlank c = false := by
    simp [isSourceBlank, hspace, htab, hreturn, hline]
  exact ⟨hpercent, hblank, hc, hopen, hclose⟩

/-- What stands behind a token of a canonical list does not run on its text. -/
theorem Canonical.after (h : Canonical (t :: tokens)) :
    (t.IsWord → Latex.startsWithLetter (tokens.flatMap toList) = false) ∧
      (t = .space → (tokens.flatMap toList).head?.any isSourceBlank = false) := by
  obtain ⟨hlexical, hapart⟩ := h
  obtain ⟨hfirst, -⟩ := List.isChain_cons.mp hapart
  cases tokens with
  | nil => exact ⟨fun _ => rfl, fun _ => rfl⟩
  | cons u tokens =>
    have hu : u.Formed := hlexical.formed u (by simp)
    obtain ⟨hblank, hletter⟩ := hfirst u rfl
    obtain ⟨hstart, hspace⟩ := hu.head?_append (tokens.flatMap toList)
    rw [List.flatMap_cons]
    constructor
    · intro hword
      exact hstart.trans (hletter hword)
    · intro ht
      by_contra hnot
      exact hblank ⟨ht, hspace (by simpa using hnot)⟩

/-- A token is scanned from its text, unless it is a lone backslash or what follows runs on. -/
theorem Formed.scan_append (h : t.Formed) (hlone : t ≠ .char '\\') {after : List Char}
    (hword : t.IsWord → Latex.startsWithLetter after = false)
    (hspace : t = .space → after.head?.any isSourceBlank = false) :
    scan (t.toList ++ after) = t :: scan after := by
  cases h with
  | @word letters ne alpha =>
    rw [toList, String.toList_ofList]
    exact Latex.scan_command ne alpha (hword ⟨letters, ne, alpha, rfl⟩)
  | sign c =>
    rw [toList, String.toList_ofList]
    by_cases hc : c.isAlpha = true
    · have halpha : ∀ d ∈ [c], d.isAlpha = true := by simpa using hc
      have hne : [c] ≠ [] := List.cons_ne_nil c []
      exact Latex.scan_command hne halpha (hword ⟨[c], hne, halpha, rfl⟩)
    · exact Latex.scans_sign (by simpa using hc) after
  | groupStart => exact Latex.scans_openBrace after
  | groupEnd => exact Latex.scans_closeBrace after
  | space => exact Latex.scan_space (hspace rfl)
  | @char c plain =>
    exact Latex.scans_char (ordinary_of_plain plain (by simpa using hlone)) after

/-- **The text of canonical tokens has these tokens.** -/
theorem scan_flatMap_toList (h : Canonical tokens) : scan (tokens.flatMap toList) = tokens := by
  induction tokens with
  | nil => exact Latex.scan_nil
  | cons t tokens ih =>
    obtain ⟨hword, hspace⟩ := h.after
    obtain ⟨hformed, hlast, hrest⟩ := lexical_cons.mp h.toLexical
    by_cases hlone : t = .char '\\'
    · rw [hlast hlone, hlone]
      simp [toList, scan, isSourceBlank]
    · rw [List.flatMap_cons, hformed.scan_append hlone hword hspace, ih ⟨hrest, h.apart.tail⟩]

/-- **Tokenization is total and exact.**  Read by the grammar, every text is a source, and its
    tokens are those of `tokenize`.  They can stand in the tokens of a text, without a comment they
    are canonical, and every canonical list is the tokens of its text. -/
theorem tokenize_exact (latex : String) (tokens : List Token) :
    (∀ result, Grammar.Reads .source latex.toList result ↔ result = some (tokenize latex, [])) ∧
      Lexical (tokenize latex) ∧
      ('%' ∉ latex.toList → Canonical (tokenize latex)) ∧
      (Canonical tokens → tokenize (String.join (tokens.map Token.text)) = tokens) := by
  refine ⟨fun _ => Grammar.reads_source_iff, lexical_scan _, canonical_scan, ?_⟩
  intro h
  have htext : (String.join (tokens.map Token.text)).toList = tokens.flatMap toList := by
    rw [String.toList_join, List.flatMap_map]
    exact congrArg (tokens.flatMap ·) (funext fun t => String.toList_ofList)
  rw [tokenize, htext]
  exact scan_flatMap_toList h

/-- An escaped backslash with a letter behind it, and a backslash that ends the text. -/
theorem tokenize_exact_backslashes :
    Canonical (tokenize "\\\\a\\") ∧
      tokenize (String.join
        ([.command "\\\\", .char 'a', .space, .char '\\'].map Token.text)) =
        [.command "\\\\", .char 'a', .space, .char '\\'] := by
  have hformed : ∀ t ∈ [Token.command "\\\\", .char 'a', .space, .char '\\'], t.Formed := by
    simp only [List.forall_mem_cons]
    exact ⟨.sign '\\', .char (by decide), .space, .char (by decide), by simp⟩
  have hsign : ∀ u, (Token.command "\\\\").Apart u :=
    apart_of_ne (by simp) (not_isWord_sign (c := '\\') (by decide))
  have hplain : ∀ c u, (Token.char c).Apart u := fun c => apart_of_ne (by simp) (by simp [IsWord])
  have hspace : ∀ c, Token.space.Apart (.char c) := fun c => ⟨by simp, by simp [IsWord]⟩
  obtain ⟨-, -, hscanned, hwritten⟩ := tokenize_exact "\\\\a\\"
    [.command "\\\\", .char 'a', .space, .char '\\']
  exact ⟨hscanned (by decide), hwritten ⟨⟨hformed, by simp⟩,
    by simp only [List.isChain_cons_cons, hsign, hplain, hspace, true_and, List.IsChain.singleton]⟩⟩

end Token

end Formula
