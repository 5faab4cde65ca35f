import Formula.Proofs.Latex.Atoms
import Formula.Proofs.Standard.Operators

/-!
  **Sets between braces.**

  The elements are written with a comma behind each, the last included, and the comma is an infix
  operator: it adds what follows it, if anything does, to the sequence read so far.  A condition is
  written behind a bar, which makes a sequence of the element and the condition.  The braces take
  the elements of the sequence that stands between them.

  A set is an atom as soon as its elements are, so a nesting of sets is read by induction.
-/

namespace Formula

open Latex Reader Standard
open Token (scan)

/-! ### The three notations -/

/-- Sets between braces. -/
def braces : Entry Unit := .matchfix "Set" "\\left\\lbrace" "\\right\\rbrace"

/-- The comma between the elements of a list. -/
def comma : Entry Unit :=
  (Entry.infixOp "Sequence" "," sequencePrecedence).withParse Standard.sequence

/-- The bar before a condition. -/
def bar : Entry Unit :=
  ((Entry.custom .infixOp "\\mid" Standard.condition).withTriggers ["\\middle\\mid"]).withPrecedence
    conditionPrecedence

theorem braces_mem : braces ∈ (standardEntries : List (Entry Unit)) := by
  simp [standardEntries, setEntries, setOperatorEntries, braces]

theorem comma_mem : comma ∈ (standardEntries : List (Entry Unit)) := by
  simp [standardEntries, arithmeticEntries, structureEntries, comma]

theorem bar_mem : bar ∈ (standardEntries : List (Entry Unit)) := by
  simp [standardEntries, setEntries, setOperatorEntries, bar]

/-- Two commands of letters. -/
theorem word_commands {first second : List Char} (hfirst : first ≠ [])
    (hfirsts : ∀ c ∈ first, c.isAlpha = true) (hsecond : second ≠ [])
    (hseconds : ∀ c ∈ second, c.isAlpha = true) :
    Word ('\\' :: first ++ '\\' :: second)
      [.command (String.ofList ('\\' :: first)), .command (String.ofList ('\\' :: second))] :=
  (word_command hsecond hseconds).after_command hfirst hfirsts

theorem word_open :
    Word "\\left\\lbrace".toList [.command "\\left", .command "\\lbrace"] :=
  @word_commands "left".toList "lbrace".toList (by decide) (List.all_eq_true.mp (by decide))
    (by decide) (List.all_eq_true.mp (by decide))

theorem word_close :
    Word "\\right\\rbrace".toList [.command "\\right", .command "\\rbrace"] :=
  @word_commands "right".toList "rbrace".toList (by decide) (List.all_eq_true.mp (by decide))
    (by decide) (List.all_eq_true.mp (by decide))

theorem word_bar :
    Word "\\middle\\mid".toList [.command "\\middle", .command "\\mid"] :=
  @word_commands "middle".toList "mid".toList (by decide) (List.all_eq_true.mp (by decide))
    (by decide) (List.all_eq_true.mp (by decide))

theorem braces_open : (Trigger.ofLatex "\\left\\lbrace").tokens =
    [.command "\\left", .command "\\lbrace"] :=
  Trigger.tokens_of_word word_open (by simp [Token.isSpace])

theorem braces_close : (Trigger.ofLatex "\\right\\rbrace").tokens =
    [.command "\\right", .command "\\rbrace"] :=
  Trigger.tokens_of_word word_close (by simp [Token.isSpace])

theorem comma_tokens : (Trigger.ofLatex ",").tokens = [.char ','] :=
  Trigger.tokens_of_word
    (word_char ⟨by decide, by decide, by decide, by decide, by decide⟩ (by decide))
    (by simp [Token.isSpace])

theorem bar_tokens : (Trigger.ofLatex "\\middle\\mid").tokens =
    [.command "\\middle", .command "\\mid"] :=
  Trigger.tokens_of_word word_bar (by simp [Token.isSpace])

theorem only_braces (rest : List Token) :
    Only Engine.standard [.symbol, .prefixOp, .matchfix] braces (.ofLatex "\\left\\lbrace") rest :=
  only_standard braces_mem (List.mem_singleton_self _) (by decide) braces_open
    alone_notations.2.1 rest

theorem only_comma (rest : List Token) :
    Only Engine.standard [.infixOp, .postfixOp] comma (.ofLatex ",") rest :=
  only_standard comma_mem (List.mem_singleton_self _) (by decide) comma_tokens
    alone_notations.2.2.1 rest

theorem only_bar (rest : List Token) :
    Only Engine.standard [.infixOp, .postfixOp] bar (.ofLatex "\\middle\\mid") rest :=
  only_standard bar_mem (List.mem_cons_of_mem _ (List.mem_singleton_self _)) (by decide) bar_tokens
    alone_notations.2.2.2 rest

theorem closes_braces : Closes Engine.standard (Trigger.ofLatex "\\right\\rbrace").tokens :=
  ⟨_, _, braces_close, Engine.parentheses_standard.closer, by decide, by decide, by decide⟩

/-- Behind an element stands the closing brace. -/
theorem scan_close {after : List Char} (hafter : Clear after) :
    scan ("\\right\\rbrace".toList ++ after) =
      (Trigger.ofLatex "\\right\\rbrace").tokens ++ scan after := by
  rw [braces_close]
  exact word_close.scan_eq after fun _ => hafter.letter

theorem skipSpace_scan_close {after : List Char} (hafter : Clear after) :
    skipSpace (scan ("\\right\\rbrace".toList ++ after)) =
      (Trigger.ofLatex "\\right\\rbrace").tokens ++ scan after := by
  rw [scan_close hafter]
  exact (closes_braces.halts 0 (scan after)).1

theorem stops_close {after : List Char} (hafter : Clear after) :
    Stops Engine.standard ("\\right\\rbrace".toList ++ after) := by
  refine ⟨clear_command _, ?_⟩
  rw [skipSpace_scan_close hafter, braces_close]
  rintro t ⟨rfl⟩
  left
  decide

/-! ### The elements of a list -/

/-- What a comma adds an element to. -/
def elementsOf (lhs : Expr) : List Expr := if lhs.hasHead "Sequence" then lhs.ops else [lhs]

/-- No list and no group: what stands in a list as it is. -/
def Bare (e : Expr) : Prop := e.headName? ≠ some "Sequence" ∧ e.headName? ≠ some "Delimiter"

theorem Bare.isGrouping {e : Expr} (h : Bare e) : e.isGrouping = false := by
  have hsequence := Tree.isValidCall_of_headName h.1
  have hgroup := Tree.isValidCall_of_headName h.2
  rw [Tree.isValidCall] at hsequence hgroup
  rw [Tree.isGrouping, Bool.and_or_distrib_left, hsequence, hgroup]
  rfl

theorem Bare.elementsOf_eq {e : Expr} (h : Bare e) : elementsOf e = [e] := by
  have hhead : e.hasHead "Sequence" = false := by
    cases e with
    | call label head ops => simpa [Tree.hasHead, Tree.headName?] using h.1
    | _ => rfl
  rw [elementsOf, hhead, if_neg Bool.false_ne_true]

/-- A list of bare elements is not changed. -/
theorem call_sequence {engine : Engine Unit} {es : List Expr} (h : ∀ e ∈ es, Bare e) :
    engine.call "Sequence" es = .call () "Sequence" es :=
  Engine.call_of_none (fun e he => (h e he).isGrouping)
    fun _ e he => Tree.isValidCall_of_headName (h e he).1

/-- The script of the only operator that starts here is carried out. -/
theorem more_script {engine : Engine Unit} (h : engine.Accepted) {stop : Terminator}
    (hstop : Proper engine stop) {entry : Entry Unit} {trigger : Trigger} {tail : List Token}
    (honly : Only engine [.infixOp, .postfixOp] entry trigger tail)
    (hbound : stop.minPrec ≤ entry.precedence) {handler : Handler Unit}
    (hparse : entry.parse = .custom handler) {lhs e : Expr} {rest : List Token}
    (hrun : runScript engine engine.host (expression engine engine.host)
      (handler (some lhs) stop) [] tail = pure (some e, rest)) :
    more engine stop lhs (trigger.tokens ++ tail) = more engine stop e rest := by
  obtain ⟨t, more, htokens, hopens, -, -⟩ := honly.opens
  obtain ⟨consumed, hfound⟩ := honly.found
  rw [htokens, List.cons_append] at hfound ⊢
  apply more_of_accepted h hstop hopens
  · rw [hfound]
    exact List.cons_ne_nil _ _
  · have hfilter : [(⟨entry, consumed, tail⟩ : TriggerMatch Unit)].filter
        (fun candidate => stop.minPrec ≤ candidate.entry.precedence) =
          [⟨entry, consumed, tail⟩] := by
      simpa using hbound
    rw [hfound, hfilter, firstAccepted_cons,
      accept_of_script ⟨entry, consumed, tail⟩ hparse hrun]
    rfl

section

variable {stop : Terminator} {tail rest : List Token}

theorem more_comma (hstop : Proper Engine.standard stop)
    (hbound : stop.minPrec ≤ sequencePrecedence) (lhs : Expr) {next : Option Expr}
    (hnext : expression Engine.standard Engine.standard.host
      (stop.withMinPrec (sequencePrecedence + 1)) tail = pure (next, rest)) :
    more Engine.standard stop lhs (.char ',' :: tail) =
      more Engine.standard stop
        (Engine.standard.call "Sequence" (elementsOf lhs ++ next.toList)) rest := by
  have hrun : runScript Engine.standard Engine.standard.host
      (expression Engine.standard Engine.standard.host)
      (Standard.sequence (some lhs) stop) [] tail =
        pure (some (Engine.standard.call "Sequence" (elementsOf lhs ++ next.toList)), rest) := by
    rw [Standard.sequence, runScript, hnext, pure_bind]
    simp only [finish, runScript, build_eq, pure_bind]
    rfl
  have hmore := more_script Engine.accepted_standard hstop (only_comma tail) hbound rfl hrun
  rw [comma_tokens] at hmore
  exact hmore

theorem more_bar (hstop : Proper Engine.standard stop)
    (hbound : stop.minPrec ≤ conditionPrecedence) (lhs : Expr) {predicate : Expr}
    (hpredicate : expression Engine.standard Engine.standard.host
      (stop.withMinPrec (conditionPrecedence + 1)) tail = pure (some predicate, rest)) :
    more Engine.standard stop lhs ([.command "\\middle", .command "\\mid"] ++ tail) =
      more Engine.standard stop (Engine.standard.call "Sequence"
        [lhs, Engine.standard.call "Condition" [predicate]]) rest := by
  have hrun : runScript Engine.standard Engine.standard.host
      (expression Engine.standard Engine.standard.host)
      (Standard.condition (some lhs) stop) [] tail =
        pure (some (Engine.standard.call "Sequence"
          [lhs, Engine.standard.call "Condition" [predicate]]), rest) := by
    rw [Standard.condition, runScript, hpredicate, pure_bind]
    simp only [finish, runScript, build_eq, pure_bind]
  have hmore := more_script Engine.accepted_standard hstop (only_bar tail) hbound rfl hrun
  rw [bar_tokens] at hmore
  exact hmore

end

/-! ### Elements one after the other -/

/-- The text of the elements of a set, each with a comma behind it. -/
def elementsText (texts : List (List Char)) : List Char := texts.flatMap (· ++ [' ', ','])

theorem scan_comma (text : List Char) :
    skipSpace (scan ([' ', ','] ++ text)) = .char ',' :: scan text := by
  have hordinary : Ordinary ',' := ⟨by decide, by decide, by decide, by decide, by decide⟩
  show skipSpace (scan (' ' :: ([','] ++ text))) = _
  rw [skipSpace_scan_blank, scans_char hordinary text]
  rfl

theorem halts_comma_token {bound : Nat} (hbound : sequencePrecedence < bound) (rest : List Token) :
    Halts Engine.standard bound (.char ',' :: rest) := by
  have hhalts : Halts Engine.standard bound ((Trigger.ofLatex ",").tokens ++ rest) :=
    (only_comma rest).halts hbound
  rwa [comma_tokens] at hhalts

theorem halts_comma {bound : Nat} (hbound : sequencePrecedence < bound) (text : List Char) :
    Halts Engine.standard bound (skipSpace (scan ([' ', ','] ++ text))) := by
  rw [scan_comma]
  exact halts_comma_token hbound (scan text)

/-- **The elements of a list are read one by one.**  In front of each comma stands what was read so
    far, and behind the last one nothing. -/
theorem more_elements {stop : Terminator} (hstop : Proper Engine.standard stop)
    (hbound : stop.minPrec ≤ sequencePrecedence) {texts : List (List Char)} {es : List Expr}
    (hes : List.Forall₂ (Atom Engine.standard) texts es) (hbare : ∀ e ∈ es, Bare e)
    {after : List Char} (hafter : Stops Engine.standard after) {lhs : Expr} {found : List Expr}
    (hlhs : elementsOf lhs = found) (hfound : ∀ e ∈ found, Bare e) :
    more Engine.standard stop lhs (.char ',' :: scan (elementsText texts ++ after)) =
      pure (.call () "Sequence" (found ++ es), skipSpace (scan after)) := by
  induction hes generalizing lhs found with
  | nil =>
    have hnext := hafter.nothing Engine.accepted_standard
      (stop.withMinPrec (sequencePrecedence + 1))
    have hmore := more_comma hstop hbound lhs hnext
    rw [hlhs, Option.toList_none, List.append_nil, call_sequence hfound,
      more_of_halts (hafter.halts _)] at hmore
    rw [List.append_nil]
    exact hmore
  | @cons text e texts es he _ ih =>
    obtain ⟨hbare_e, hbare_es⟩ := List.forall_mem_cons.mp hbare
    have hfound' : ∀ x ∈ found ++ [e], Bare x :=
      List.forall_mem_append.mpr ⟨hfound, by simpa using hbare_e⟩
    have hnext := he.read Engine.accepted_standard
      (hstop.withMinPrec (sequencePrecedence + 1))
      (clear_blank (',' :: (elementsText texts ++ after)))
      (halts_comma (Nat.lt_succ_self _) (elementsText texts ++ after))
    have hmore := more_comma hstop hbound lhs hnext
    have hrest : skipSpace (scan (' ' :: ',' :: (elementsText texts ++ after))) =
        .char ',' :: scan (elementsText texts ++ after) := scan_comma _
    have hlist : elementsOf (.call () "Sequence" (found ++ [e])) = found ++ [e] := rfl
    have htext : elementsText (text :: texts) ++ after =
        text ++ (' ' :: ',' :: (elementsText texts ++ after)) := by
      simp [elementsText]
    rw [hlhs, Option.toList_some, call_sequence hfound', hrest, ih hbare_es hlist hfound',
      List.append_assoc] at hmore
    rw [htext]
    exact hmore

/-! ### Sets as atoms -/

theorem ruled_braces : braces.Ruled .matchfix := ⟨rfl, rfl, rfl⟩

/-- What stands between braces is an atom if it is read as a list. -/
theorem atom_braces {text : List Char} (hne : text ≠ []) {es : List Expr}
    (hbare : ∀ e ∈ es, e.isGrouping = false)
    (hbody : BodyReads Engine.standard text "\\right\\rbrace".toList
      (.ofLatex "\\right\\rbrace") (.call () "Sequence" es)) :
    Atom Engine.standard
      ("\\left\\lbrace".toList ++ gap "\\left\\lbrace".toList text ++ text ++
        "\\right\\rbrace".toList)
      (.call () "Set" es) := by
  have hopening : Word "\\left\\lbrace".toList (Trigger.ofLatex "\\left\\lbrace").tokens := by
    rw [braces_open]
    exact word_open
  have hassociative : (Engine.standard : Engine Unit).isAssociative "Set" = false := rfl
  have hset : Engine.standard.call braces.headName
      (contents braces.headName (.call () "Sequence" es)) = .call () "Set" es :=
    Engine.call_plain hassociative hbare
  have hatom := Atom.around Engine.accepted_standard ruled_braces rfl closes_braces only_braces
    hopening hne hbody
  rwa [hset] at hatom

theorem proper_braces : Proper Engine.standard
    { minPrec := 0, close := some (Trigger.ofLatex "\\right\\rbrace").tokens } :=
  closes_braces.proper

/-- Elements between braces. -/
theorem atom_elements {text : List Char} {texts : List (List Char)} {e : Expr} {es : List Expr}
    (he : Atom Engine.standard text e) (hes : List.Forall₂ (Atom Engine.standard) texts es)
    (hbare : ∀ x ∈ e :: es, Bare x) :
    Atom Engine.standard
      ("\\left\\lbrace".toList ++
        gap "\\left\\lbrace".toList (elementsText (text :: texts)) ++
        elementsText (text :: texts) ++ "\\right\\rbrace".toList)
      (.call () "Set" (e :: es)) := by
  refine atom_braces (by simp [elementsText]) (fun x hx => (hbare x hx).isGrouping) ?_
  intro after hafter
  obtain ⟨hbare_e, hbare_es⟩ := List.forall_mem_cons.mp hbare
  have hrest : skipSpace (scan (' ' :: ',' :: (elementsText texts ++
      ("\\right\\rbrace".toList ++ after)))) = .char ',' :: scan (elementsText texts ++
        ("\\right\\rbrace".toList ++ after)) := scan_comma _
  have htext : elementsText (text :: texts) ++ ("\\right\\rbrace".toList ++ after) =
      text ++ (' ' :: ',' :: (elementsText texts ++ ("\\right\\rbrace".toList ++ after))) := by
    simp [elementsText]
  have hmore := more_elements proper_braces (Nat.zero_le _) hes hbare_es (stops_close hafter)
    hbare_e.elementsOf_eq (by simpa using hbare_e)
  rw [htext, he.reads proper_braces (clear_blank _), completed,
    ← more_skipSpace Engine.accepted_standard, hrest, hmore, skipSpace_scan_close hafter]
  rfl

/-- An element and a condition between braces. -/
theorem atom_condition {text text' : List Char} {e p : Expr} (he : Atom Engine.standard text e)
    (hp : Atom Engine.standard text' p) (hbare_e : Bare e) (hbare_p : Bare p) :
    Atom Engine.standard
      ("\\left\\lbrace".toList ++ gap "\\left\\lbrace".toList text ++
        (text ++ "\\middle\\mid".toList ++ gap "\\middle\\mid".toList text' ++ text') ++
        "\\right\\rbrace".toList)
      (.call () "Set" [e, .call () "Condition" [p]]) := by
  have hassociative : (Engine.standard : Engine Unit).isAssociative "Condition" = false := rfl
  have hcall : Engine.standard.call "Condition" [p] = .call () "Condition" [p] :=
    Engine.call_plain hassociative (by simpa using hbare_p.isGrouping)
  have hbare : ∀ x ∈ [e, .call () "Condition" [p]], Bare x := by
    intro x hx
    rcases List.mem_cons.mp hx with rfl | hx
    · exact hbare_e
    · rw [List.mem_singleton.mp hx]
      exact ⟨by simp [Tree.headName?], by simp [Tree.headName?]⟩
  have hgap := gap_append "\\left\\lbrace".toList he.ne
    ("\\middle\\mid".toList ++ gap "\\middle\\mid".toList text' ++ text')
  simp only [← List.append_assoc] at hgap
  rw [← hgap]
  refine atom_braces (by simp [he.ne]) (fun x hx => (hbare x hx).isGrouping) ?_
  intro after hafter
  have hstops := stops_close hafter
  have htext : text ++ "\\middle\\mid".toList ++ gap "\\middle\\mid".toList text' ++ text' ++
      ("\\right\\rbrace".toList ++ after) =
        text ++ ("\\middle\\mid".toList ++ (gap "\\middle\\mid".toList text' ++
          (text' ++ ("\\right\\rbrace".toList ++ after)))) := by
    simp only [List.append_assoc]
  have hclear : Clear ("\\middle\\mid".toList ++ (gap "\\middle\\mid".toList text' ++
      (text' ++ ("\\right\\rbrace".toList ++ after)))) := clear_command _
  have hpredicate := hp.read Engine.accepted_standard
    (proper_braces.withMinPrec (conditionPrecedence + 1)) hstops.clear (hstops.halts _)
  rw [← expression_gap Engine.accepted_standard _ "\\middle\\mid".toList text'] at hpredicate
  have hmore := more_bar proper_braces (Nat.zero_le _) e hpredicate
  rw [hcall, call_sequence hbare, more_of_halts (hstops.halts _),
    skipSpace_scan_close hafter] at hmore
  rw [htext, he.reads proper_braces hclear, completed, scan_word_gap word_bar hp.ne, hmore]
  rfl

/-! ### The LaTeX of a set -/

theorem writeEach_eq_map {α : Type} (d : Dictionary α) (ops : List (Tree α)) :
    writeEach d ops = ops.map (write d) := by
  induction ops with
  | nil => rfl
  | cons op ops ih => rw [writeEach, ih, List.map_cons]

theorem latex_set (ops : List Expr) : Engine.standard.latex (.call () "Set" ops) =
    writeSetLike (Engine.standard : Engine Unit).dictionary "Set" ops := by
  have hnamed : (Engine.standard : Engine Unit).dictionary.byName? "Set" =
      some ((Entry.matchfix "Set" "\\lbrace" "\\rbrace").withWrite .setLike) := by
    rw [Dictionary.indexed_standard.name_eq]
    rfl
  have hform : formOf (Engine.standard : Engine Unit).dictionary "Set" ops.length = .setLike := by
    rw [formOf, if_neg (by decide), hnamed]
    rfl
  rw [Engine.latex, write, hform]

/-- Elements without a condition are written with a comma behind each. -/
theorem latex_elements {e : Expr} {es : List Expr} (h : ∀ x ∈ es, x.hasHead "Condition" = false) :
    Engine.standard.latex (.call () "Set" (e :: es)) =
      setOfElements ((e :: es).map Engine.standard.latex) := by
  rw [latex_set]
  match es with
  | [] => rfl
  | [x] =>
    have hx := h x (by simp)
    simp only [writeSetLike, if_true, hx, Bool.false_eq_true, if_false]
    rfl
  | x :: y :: rest =>
    simp only [writeSetLike, if_true, writeEach_eq_map]
    rfl

theorem setOfElements_toList (latex : String) (others : List String) :
    (setOfElements (latex :: others)).toList =
      joinChars ("\\left\\lbrace".toList ::
        (latex.toList :: others.map String.toList).map (· ++ [' ', ',']) ++
          ["\\right\\rbrace".toList]) := by
  have hpieces : ∀ pieces : List String, (pieces.map (· ++ " ,")).map String.toList =
      (pieces.map String.toList).map (· ++ [' ', ',']) := by
    intro pieces
    simp [Function.comp_def]
  rw [setOfElements, List.isEmpty_cons, if_neg Bool.false_ne_true, join, String.toList_ofList,
    List.map_append, List.map_cons, hpieces]
  rfl

/-- A condition is written behind a bar. -/
theorem latex_condition (e p : Expr) :
    Engine.standard.latex (.call () "Set" [e, .call () "Condition" [p]]) =
      setOfCondition (Engine.standard.latex e) (Engine.standard.latex p) := by
  have hcondition : (Tree.call () "Condition" [p]).hasHead "Condition" = true :=
    beq_self_eq_true _
  rw [latex_set]
  simp only [writeSetLike, if_true, hcondition, writeContent, writeFirst, Engine.latex]

/-- Behind a comma nothing is put between the pieces. -/
theorem foldl_elements (texts : List (List Char)) {text : List Char}
    (h : endsWithCommand text = false) :
    (texts.map (· ++ [' ', ','])).foldl append text = text ++ elementsText texts := by
  induction texts generalizing text with
  | nil => simp [elementsText]
  | cons next texts ih =>
    have hcomma : endsWithCommand (text ++ (next ++ [' ', ','])) = false := by
      rw [← List.append_assoc, endsWithCommand_append _ ⟨' ', by simp, by decide⟩]
      decide
    rw [List.map_cons, List.foldl_cons, append_of_not_command h, ih hcomma]
    simp [elementsText]

theorem joinChars_elements (text : List Char) (texts : List (List Char)) :
    joinChars ("\\left\\lbrace".toList :: (text :: texts).map (· ++ [' ', ',']) ++
      ["\\right\\rbrace".toList]) =
        "\\left\\lbrace".toList ++
          gap "\\left\\lbrace".toList (elementsText (text :: texts)) ++
          elementsText (text :: texts) ++ "\\right\\rbrace".toList := by
  have hfirst : append (append [] "\\left\\lbrace".toList) (text ++ [' ', ',']) =
      "\\left\\lbrace".toList ++ gap "\\left\\lbrace".toList (text ++ [' ', ',']) ++
        (text ++ [' ', ',']) := by
    rw [nil_append]
    exact append_after_word [] word_open (text ++ [' ', ','])
  have hcomma : endsWithCommand ("\\left\\lbrace".toList ++
      gap "\\left\\lbrace".toList (text ++ [' ', ',']) ++ (text ++ [' ', ','])) = false := by
    rw [← List.append_assoc, endsWithCommand_append _ ⟨' ', by simp, by decide⟩]
    decide
  have hgap : gap "\\left\\lbrace".toList (elementsText (text :: texts)) =
      gap "\\left\\lbrace".toList (text ++ [' ', ',']) := gap_append _ (by simp) _
  have hclose : startsWithLetter "\\right\\rbrace".toList = false := by decide
  simp only [joinChars, List.cons_append, List.foldl_append, List.foldl_cons, List.foldl_nil,
    List.map_cons, hfirst, foldl_elements texts hcomma, hgap, append_of_start hclose]
  simp [elementsText]

theorem joinChars_condition (text text' : List Char) :
    joinChars ["\\left\\lbrace".toList, text, "\\middle\\mid".toList, text',
      "\\right\\rbrace".toList] =
        "\\left\\lbrace".toList ++ gap "\\left\\lbrace".toList text ++
          (text ++ "\\middle\\mid".toList ++ gap "\\middle\\mid".toList text' ++ text') ++
          "\\right\\rbrace".toList := by
  have hfirst : append (append [] "\\left\\lbrace".toList) text =
      "\\left\\lbrace".toList ++ gap "\\left\\lbrace".toList text ++ text := by
    rw [nil_append]
    exact append_after_word [] word_open text
  have hmiddle : startsWithLetter "\\middle\\mid".toList = false := by decide
  have hclose : startsWithLetter "\\right\\rbrace".toList = false := by decide
  simp only [joinChars, List.foldl_cons, List.foldl_nil, hfirst, append_of_start hmiddle,
    append_after_word _ word_bar, append_of_start hclose]
  simp only [List.append_assoc]

/-! ### Nested sets -/

/-- Letters, whole numbers that fit, and sets of these, given by their elements or by a condition on
    an element. -/
inductive NestedSet : Expr → Prop where
  | letter {c : Char} (hc : c.isAlpha = true) : NestedSet (.symbol (String.singleton c))
  | integer {n : Nat} (hn : n ≤ largestInteger) : NestedSet (.number (.integer n))
  | elements {e : Expr} {es : List Expr} (he : NestedSet e) (hes : ∀ x ∈ es, NestedSet x) :
      NestedSet (.call () "Set" (e :: es))
  | condition {e p : Expr} (he : NestedSet e) (hp : NestedSet p) :
      NestedSet (.call () "Set" [e, .call () "Condition" [p]])

namespace NestedSet

theorem headName {e : Expr} (h : NestedSet e) : e.headName? = none ∨ e.headName? = some "Set" := by
  cases h with
  | letter hc => exact Or.inl rfl
  | integer hn => exact Or.inl rfl
  | elements he hes => exact Or.inr rfl
  | condition he hp => exact Or.inr rfl

theorem bare {e : Expr} (h : NestedSet e) : Bare e := by
  rcases h.headName with hhead | hhead
  · exact ⟨by simp [hhead], by simp [hhead]⟩
  · exact ⟨by simp [hhead], by simp [hhead]⟩

theorem not_condition {e : Expr} (h : NestedSet e) : e.hasHead "Condition" = false := by
  cases h <;> rfl

/-- **A nested set is an atom.** -/
theorem atom {e : Expr} (h : NestedSet e) :
    Atom Engine.standard (Engine.standard.latex e).toList e := by
  induction h with
  | letter hc => exact (readAs_letter_standard hc).atom Engine.accepted_standard rfl
  | integer hn => exact (readAs_integer_standard hn).atom Engine.accepted_standard rfl
  | @elements e es he hes ihe ihes =>
    have hatoms : List.Forall₂ (Atom Engine.standard)
        ((es.map Engine.standard.latex).map String.toList) es := by
      rw [List.forall₂_map_left_iff, List.forall₂_map_left_iff]
      exact List.forall₂_same.mpr ihes
    have hbare : ∀ x ∈ e :: es, Bare x :=
      List.forall_mem_cons.mpr ⟨he.bare, fun x hx => (hes x hx).bare⟩
    have hatom := atom_elements ihe hatoms hbare
    rw [latex_elements fun x hx => (hes x hx).not_condition, List.map_cons, setOfElements_toList,
      joinChars_elements]
    exact hatom
  | @condition e p he hp ihe ihp =>
    have hatom := atom_condition ihe ihp he.bare hp.bare
    rw [← joinChars_condition] at hatom
    rw [latex_condition, setOfCondition, join, String.toList_ofList]
    exact hatom

end NestedSet

/-- **Nested sets are read back.**  A set of letters, whole numbers and sets of these, given by any
    number of elements but none or by a condition on an element, at any depth, is what its LaTeX is
    read as. -/
theorem parse_latex_nestedSet {e : Expr} (h : NestedSet e) :
    Engine.standard.parse (Engine.standard.latex e) = e :=
  h.atom.parse_eq Engine.accepted_standard

/-- The set that holds the set of `a` and `7`, and the set of `x` with the set of `p` for a
    condition. -/
theorem parse_latex_nestedSet_deep :
    NestedSet (.call () "Set" [.call () "Set" [.symbol "a", .number (.integer 7)],
      .call () "Set" [.symbol "x", .call () "Condition" [.call () "Set" [.symbol "p"]]]]) ∧
    Engine.standard.parse (Engine.standard.latex
        (.call () "Set" [.call () "Set" [.symbol "a", .number (.integer 7)],
          .call () "Set" [.symbol "x", .call () "Condition" [.call () "Set" [.symbol "p"]]]])) =
      .call () "Set" [.call () "Set" [.symbol "a", .number (.integer 7)],
        .call () "Set" [.symbol "x", .call () "Condition" [.call () "Set" [.symbol "p"]]]] := by
  have hletter : ∀ c : Char, c.isAlpha = true → NestedSet (.symbol (String.singleton c)) :=
    fun c hc => .letter hc
  have hinteger : NestedSet (.number (.integer 7)) := @NestedSet.integer 7 (by decide)
  have hpair : NestedSet (.call () "Set" [.symbol "a", .number (.integer 7)]) :=
    .elements (hletter 'a' rfl) (by simpa using hinteger)
  have hcondition : NestedSet
      (.call () "Set" [.symbol "x", .call () "Condition" [.call () "Set" [.symbol "p"]]]) :=
    .condition (hletter 'x' rfl) (.elements (hletter 'p' rfl) (by simp))
  have hset : NestedSet (.call () "Set" [.call () "Set" [.symbol "a", .number (.integer 7)],
      .call () "Set" [.symbol "x", .call () "Condition" [.call () "Set" [.symbol "p"]]]]) :=
    .elements hpair (by simpa using hcondition)
  exact ⟨hset, parse_latex_nestedSet hset⟩

end Formula
