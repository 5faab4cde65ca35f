import Formula.Proofs.Domain
import Formula.Proofs.Domain.Preorder
import Formula.Proofs.Standard.Operators

/-!
  **Crosses.**

  A cross stands for the product of sets or for the product of numbers.  The product of sets is
  tried first: if its left side is a set, all that follows is read as its right side, and if that
  is no set the reader goes back to the cross and takes it for the product of numbers, which reads
  one operand only.

  So each cross of a chain reads the rest of the chain, and what that comes to is known from the
  shorter chain: a set if all its operands are sets, else a number.  The first operand that is no
  set makes every cross in front of it a product of numbers, and a product of numbers is no set,
  so that it goes on to the end of the chain.
-/

namespace Formula

open Latex Reader Standard

variable {engine : Engine Unit}

/-! ### Engines that know more symbols -/

namespace Engine

/-- Tell the engine the domains of symbols, one after the other. -/
def declareSymbols (engine : Engine Unit) (declarations : List (String × Literal)) :
    Engine Unit :=
  declarations.foldl (fun engine declaration =>
    engine.declareSymbol declaration.1 declaration.2) engine

/-- The engine is the standard one, up to what it knows of symbols. -/
structure Declared (engine : Engine Unit) : Prop where
  dictionary_eq : engine.dictionary = (Engine.standard : Engine Unit).dictionary
  options_eq : engine.options = (Engine.standard : Engine Unit).options
  functions_eq : engine.functions = (Engine.standard : Engine Unit).functions

theorem declared_standard : Declared Engine.standard := ⟨rfl, rfl, rfl⟩

theorem declared_declareSymbols (declarations : List (String × Literal)) :
    Declared (Engine.standard.declareSymbols declarations) := by
  have hfold : ∀ engine : Engine Unit, Declared engine →
      Declared (engine.declareSymbols declarations) := by
    induction declarations with
    | nil => exact fun engine h => h
    | cons declaration declarations ih =>
      intro engine h
      apply ih
      exact ⟨h.dictionary_eq, h.options_eq, h.functions_eq⟩
  exact hfold _ declared_standard

/-- Does the expression denote a set? -/
def isSet (engine : Engine Unit) (e : Expr) : Bool := engine.isCompatible e (.literal .sets)

namespace Declared

theorem accepted (h : Declared engine) : engine.Accepted := by
  unfold Engine.Accepted
  rw [h.dictionary_eq]
  exact accepted_standard

theorem free (h : Declared engine) {c : Char} (hc : c.isAlphanum = true) :
    engine.Free (.char c) := by
  have hstandard := free_standard hc
  constructor
  · rw [h.dictionary_eq]
    exact hstandard.readings
  · rw [h.dictionary_eq]
    exact hstandard.closer

theorem associative_multiply (h : Declared engine) : engine.isAssociative "Multiply" = true := by
  rw [isAssociative, h.functions_eq]
  decide

theorem isSet_call (h : Declared engine) {head : String} (hgroup : head ≠ "Delimiter")
    (ops : List Expr) :
    engine.isSet (.call () head ops) =
      ((Engine.standard : Engine Unit).functionDomain head).isBelow .sets := by
  have hdomain : engine.functionDomain head =
      (Engine.standard : Engine Unit).functionDomain head := by
    rw [functionDomain, functionDomain, h.functions_eq]
  rw [isSet, isCompatible, engine.domain_call () hgroup, hdomain,
    Domain.literal_below_literal (by decide)]

theorem associative_cartesianProduct (h : Declared engine) :
    engine.isAssociative "CartesianProduct" = false := by
  rw [isAssociative, h.functions_eq]
  decide

theorem isSet_cartesianProduct (h : Declared engine) (ops : List Expr) :
    engine.isSet (.call () "CartesianProduct" ops) = true := by
  rw [h.isSet_call (by decide)]
  decide

theorem isSet_multiply (h : Declared engine) (ops : List Expr) :
    engine.isSet (.call () "Multiply" ops) = false := by
  rw [h.isSet_call (by decide)]
  decide

end Declared

end Engine

/-! ### The two notations -/

/-- The cross between sets. -/
def crossOfSets : Entry Unit :=
  ((Entry.infixOp "CartesianProduct" "\\times" cartesianPrecedence).rightAssociative).withParse
    cartesianProduct

/-- The cross between numbers, and its other signs. -/
def crossOfNumbers : Entry Unit :=
  (Entry.infixOp "Multiply" "\\cdot" 390).withTriggers ["\\times", "*"]

def cross : Token := .command "\\times"

theorem cross_tokens : (Trigger.ofLatex "\\times").tokens = [cross] :=
  Trigger.tokens_of_word
    (@word_command "times".toList (by decide) (List.all_eq_true.mp (by decide)))
    (by simp [cross, Token.isSpace])

/-- Nothing but the two notations starts with a cross. -/
theorem readings_cross :
    (Engine.standard : Engine Unit).dictionary.readings cross =
      [⟨crossOfSets, .ofLatex "\\times"⟩, ⟨crossOfNumbers, .ofLatex "\\times"⟩] := by
  have htable : (standardEntries : List (Entry Unit)) =
      setSymbolEntries ++ crossOfSets ::
        ((setOperatorEntries.drop 1 ++ setRelationEntries ++ operatorEntries.take 3) ++
          crossOfNumbers :: (operatorEntries.drop 4 ++ relationEntries ++ structureEntries)) := rfl
  have hsymbols : (setSymbolEntries : List (Entry Unit)).flatMap (Entry.readingsAt cross) = [] :=
    List.isEmpty_iff.mp (by decide +kernel)
  have hbetween : (setOperatorEntries.drop 1 ++ setRelationEntries ++ operatorEntries.take 3 :
      List (Entry Unit)).flatMap (Entry.readingsAt cross) = [] :=
    List.isEmpty_iff.mp (by decide +kernel)
  have hbehind : (operatorEntries.drop 4 ++ relationEntries ++ structureEntries :
      List (Entry Unit)).flatMap (Entry.readingsAt cross) = [] :=
    List.isEmpty_iff.mp (by decide +kernel)
  have hstar : (Trigger.ofLatex "*").tokens = [.char '*'] :=
    Trigger.tokens_of_word
      (word_char ⟨by decide, by decide, by decide, by decide, by decide⟩ (by decide))
      (by simp [Token.isSpace])
  have hsets : crossOfSets.readingsAt cross = [⟨crossOfSets, .ofLatex "\\times"⟩] := by
    have htriggers : crossOfSets.matchedTriggers = [.ofLatex "\\times"] := rfl
    rw [Entry.readingsAt, htriggers, List.filter_cons_of_pos (by simp [cross_tokens])]
    rfl
  have hnumbers : crossOfNumbers.readingsAt cross = [⟨crossOfNumbers, .ofLatex "\\times"⟩] := by
    have htriggers : crossOfNumbers.matchedTriggers =
        [.ofLatex "\\cdot", .ofLatex "\\times", .ofLatex "*"] := rfl
    rw [Entry.readingsAt, htriggers, List.filter_cons_of_neg (by simp [cdot_tokens, cross]),
      List.filter_cons_of_pos (by simp [cross_tokens]),
      List.filter_cons_of_neg (by simp [hstar, cross])]
    rfl
  rw [Dictionary.indexed_standard.readings_eq, htable, List.flatMap_append, hsymbols,
    List.flatMap_cons, hsets, List.flatMap_append, hbetween, List.flatMap_cons, hnumbers, hbehind]
  rfl

/-- At a cross the product of sets comes first. -/
theorem candidates_cross (h : engine.Declared) (tail : List Token) :
    engine.dictionary.candidates (cross :: tail) [.infixOp, .postfixOp] =
      [⟨crossOfSets, 1, tail⟩, ⟨crossOfNumbers, 1, tail⟩] := by
  have hmatch : ∀ entry : Entry Unit,
      Reading.match? ⟨entry, .ofLatex "\\times"⟩ (cross :: tail) = some ⟨entry, 1, tail⟩ := by
    intro entry
    rw [Reading.match?, cross_tokens, matchTokens, if_pos rfl]
    simp
  have hsets : crossOfSets.kind ∈ [Kind.infixOp, .postfixOp] := by decide
  have hnumbers : crossOfNumbers.kind ∈ [Kind.infixOp, .postfixOp] := by decide
  rw [Dictionary.candidates_eq, h.dictionary_eq, readings_cross]
  simp only [List.filterMap_cons, List.filterMap_nil, if_pos hsets, if_pos hnumbers, hmatch]
  exact List.mergeSort_of_pairwise (by simp)

theorem opens_cross (h : engine.Declared) : Opens engine cross := by
  refine ⟨by decide, by decide, ?_⟩
  rw [h.dictionary_eq, Dictionary.indexed_standard.closer_eq]
  decide +kernel

/-! ### One cross -/

theorem parse_crossOfSets : crossOfSets.parse = .custom cartesianProduct := rfl

/-- A left side that is no set rejects the product of sets. -/
theorem accept_sets_of_left {stop : Terminator} {start tail : List Token} {lhs : Expr}
    (hlhs : engine.isSet lhs = false) :
    accept engine engine.host (expression engine engine.host) (some lhs) stop start
      ⟨crossOfSets, 1, tail⟩ = pure none := by
  have hanswer : engine.host.compatible lhs .sets = pure false := congrArg pure hlhs
  have hrun : runScript engine engine.host (expression engine engine.host)
      (cartesianProduct (some lhs) stop) [] tail = pure (none, tail) := by
    rw [cartesianProduct, runScript, hanswer, pure_bind, if_neg Bool.false_ne_true, runScript]
  exact accept_of_script ⟨crossOfSets, 1, tail⟩ parse_crossOfSets hrun

/-- Between two sides that are read, the right one decides. -/
theorem accept_sets_of_right {stop : Terminator} {start tail rest : List Token} {lhs rhs : Expr}
    (hlhs : engine.isSet lhs = true)
    (hrhs : expression engine engine.host (stop.withMinPrec cartesianPrecedence) tail =
      pure (some rhs, rest)) :
    accept engine engine.host (expression engine engine.host) (some lhs) stop start
      ⟨crossOfSets, 1, tail⟩ =
        pure (if engine.isSet rhs then
          some (engine.call "CartesianProduct" [lhs, rhs], rest) else none) := by
  have hleft : engine.host.compatible lhs .sets = pure true := congrArg pure hlhs
  have hright : engine.host.compatible rhs .sets = pure (engine.isSet rhs) := rfl
  have hrun : runScript engine engine.host (expression engine engine.host)
      (cartesianProduct (some lhs) stop) [] tail =
        pure (if engine.isSet rhs then some (engine.call "CartesianProduct" [lhs, rhs]) else none,
          rest) := by
    rw [cartesianProduct, runScript, hleft, pure_bind, if_pos rfl, runScript, hrhs, pure_bind]
    simp only [runScript, hright, pure_bind]
    by_cases hset : engine.isSet rhs = true
    · simp only [if_pos hset, finish, runScript, build_eq, pure_bind]
    · simp only [if_neg hset, runScript]
  rw [accept_of_script ⟨crossOfSets, 1, tail⟩ parse_crossOfSets hrun]
  by_cases hset : engine.isSet rhs = true
  · simp only [if_pos hset, Option.map_some]
  · simp only [if_neg hset, Option.map_none]

theorem accept_numbers {stop : Terminator} {start tail rest : List Token} {lhs rhs : Expr}
    (hrhs : expression engine engine.host (stop.withMinPrec 391) tail = pure (some rhs, rest)) :
    accept engine engine.host (expression engine engine.host) (some lhs) stop start
      ⟨crossOfNumbers, 1, tail⟩ = pure (some (engine.call "Multiply" [lhs, rhs], rest)) := by
  have hhead : crossOfNumbers.head? = some "Multiply" := rfl
  have hkind : crossOfNumbers.kind = .infixOp := rfl
  have hbound : rightBound crossOfNumbers = 391 := rfl
  rw [accept_eq_byKind rfl]
  simp only [byKind, hhead, hkind, hbound, hrhs, pure_bind, orMissing, build_eq]

section

variable {stop : Terminator}

theorem filter_candidates_cross (h : engine.Declared) (hbound : stop.minPrec ≤ 390)
    (tail : List Token) :
    (engine.dictionary.candidates (cross :: tail) [.infixOp, .postfixOp]).filter
      (fun candidate => stop.minPrec ≤ candidate.entry.precedence) =
        [⟨crossOfSets, 1, tail⟩, ⟨crossOfNumbers, 1, tail⟩] := by
  have hsets : crossOfSets.precedence = 390 := rfl
  have hnumbers : crossOfNumbers.precedence = 390 := rfl
  rw [candidates_cross h, List.filter_eq_self]
  simp [hsets, hnumbers, hbound]

theorem candidates_cross_ne_nil (h : engine.Declared) (tail : List Token) :
    engine.dictionary.candidates (cross :: tail) [.infixOp, .postfixOp] ≠ [] := by
  rw [candidates_cross h]
  exact List.cons_ne_nil _ _

theorem more_sets (h : engine.Declared) (hstop : Proper engine stop) (hbound : stop.minPrec ≤ 390)
    {tail rest : List Token} {lhs rhs : Expr} (hlhs : engine.isSet lhs = true)
    (hrhs : expression engine engine.host (stop.withMinPrec cartesianPrecedence) tail =
      pure (some rhs, rest))
    (hset : engine.isSet rhs = true) :
    more engine stop lhs (cross :: tail) =
      more engine stop (engine.call "CartesianProduct" [lhs, rhs]) rest := by
  apply more_of_accepted h.accepted hstop (opens_cross h) (candidates_cross_ne_nil h tail)
  rw [filter_candidates_cross h hbound, firstAccepted_cons,
    accept_sets_of_right hlhs hrhs, if_pos hset, pure_bind]

/-- Where the product of sets is rejected the cross is a product of numbers. -/
theorem more_numbers (h : engine.Declared) (hstop : Proper engine stop)
    (hbound : stop.minPrec ≤ 390) {tail rest : List Token} {lhs rhs : Expr}
    (hrejects : accept engine engine.host (expression engine engine.host) (some lhs) stop
      (cross :: tail) ⟨crossOfSets, 1, tail⟩ = pure none)
    (hrhs : expression engine engine.host (stop.withMinPrec 391) tail = pure (some rhs, rest)) :
    more engine stop lhs (cross :: tail) =
      more engine stop (engine.call "Multiply" [lhs, rhs]) rest := by
  apply more_of_accepted h.accepted hstop (opens_cross h) (candidates_cross_ne_nil h tail)
  rw [filter_candidates_cross h hbound, firstAccepted_cons, hrejects, pure_bind,
    firstAccepted_cons, accept_numbers hrhs, pure_bind]

end

/-! ### Chains of crosses -/

/-- What follows the first letter of a chain. -/
def crossTokens : List Char → List Token
  | [] => []
  | c :: more => .space :: cross :: .space :: .char c :: crossTokens more

/-- The product of sets, grouped to the right. -/
def setProduct : Expr → List Expr → Expr
  | e, [] => e
  | e, next :: more => .call () "CartesianProduct" [e, setProduct next more]

/-- The product of numbers; one operand alone is itself. -/
def numberProduct : Expr → List Expr → Expr
  | e, [] => e
  | e, next :: more => .call () "Multiply" (e :: next :: more)

/-- What a chain of crosses between letters stands for. -/
def crossValue (engine : Engine Unit) (c : Char) (more : List Char) : Expr :=
  if (c :: more).all (fun c => engine.isSet (letterSymbol c)) then
    setProduct (letterSymbol c) (more.map letterSymbol)
  else numberProduct (letterSymbol c) (more.map letterSymbol)

/-- A chain is a set just if all its letters are. -/
theorem isSet_crossValue (h : engine.Declared) (c : Char) (more : List Char) :
    engine.isSet (crossValue engine c more) =
      (c :: more).all fun c => engine.isSet (letterSymbol c) := by
  unfold crossValue
  split
  · rename_i hall
    rw [hall]
    cases more with
    | nil => simpa [setProduct] using hall
    | cons d more => exact h.isSet_cartesianProduct _
  · rename_i hnot
    rw [Bool.not_eq_true] at hnot
    rw [hnot]
    cases more with
    | nil => simpa [numberProduct] using hnot
    | cons d more => exact h.isSet_multiply _

theorem call_multiply_letters (letters : List Char) :
    engine.call "Multiply" (letters.map letterSymbol) =
      .call () "Multiply" (letters.map letterSymbol) :=
  Engine.call_leaves (isCall_letters letters)

theorem call_multiply_snoc (h : engine.Declared) (letters : List Char) (c : Char) :
    engine.call "Multiply" [.call () "Multiply" (letters.map letterSymbol), letterSymbol c] =
      .call () "Multiply" ((letters ++ [c]).map letterSymbol) := by
  rw [List.map_append]
  exact Engine.call_leaves_snoc (by decide) (by decide) h.associative_multiply
    (isCall_letters letters) rfl

section

variable {stop : Terminator}

theorem expression_letter (h : engine.Declared) (hstop : Proper engine stop) {c : Char}
    (hc : c.isAlpha = true) {rest : List Token} (hapart : Apart rest) :
    expression engine engine.host stop (.char c :: rest) =
      completed engine stop (letterSymbol c) rest := by
  have hpromotion : engine.options.promotion ≠ .never := by
    rw [h.options_eq]
    decide
  have hfree : engine.Free (.char c) := h.free (by rw [Char.isAlphanum, hc, Bool.true_or])
  exact expression_of_primary h.accepted (primary_letter hpromotion hc hfree stop rest hstop hapart)

theorem apart_crossTokens (letters : List Char) : Apart (crossTokens letters) := by
  cases letters with
  | nil => exact apart_nil
  | cons c letters =>
    rintro t ⟨rfl⟩
    exact ⟨rfl, by decide⟩

theorem skipSpace_crossTokens (c : Char) (letters : List Char) :
    skipSpace (crossTokens (c :: letters)) = cross :: .space :: .char c :: crossTokens letters :=
  rfl

theorem skipSpace_blank_letter (c : Char) (rest : List Token) :
    skipSpace (.space :: .char c :: rest) = .char c :: rest := rfl

/-- Above the precedence of the cross only the first letter of a chain is read. -/
theorem expression_first (h : engine.Declared) (hstop : Proper engine stop)
    (hbound : 390 < stop.minPrec) {c : Char} (hc : c.isAlpha = true) (more : List Char) :
    expression engine engine.host stop (.space :: .char c :: crossTokens more) =
      pure (some (letterSymbol c), skipSpace (crossTokens more)) := by
  have hhalts : Halts engine stop.minPrec (skipSpace (crossTokens more)) := by
    cases more with
    | nil => exact halts_nil _
    | cons d more =>
      refine ⟨skipSpace_skipSpace _, Or.inr ⟨candidates_cross_ne_nil h _, ?_⟩⟩
      intro found hfound
      rw [skipSpace_crossTokens, candidates_cross h, List.mem_pair] at hfound
      have hsets : crossOfSets.precedence = 390 := rfl
      have hnumbers : crossOfNumbers.precedence = 390 := rfl
      rcases hfound with rfl | rfl
      · rw [hsets]
        exact hbound
      · rw [hnumbers]
        exact hbound
  rw [← expression_skipSpace h.accepted, skipSpace_blank_letter,
    expression_letter h hstop hc (apart_crossTokens more), completed,
    ← more_skipSpace h.accepted, more_of_halts hhalts]
  rfl

theorem more_nil (lhs : Expr) : more engine stop lhs [] = pure (lhs, []) :=
  more_of_halts (halts_nil _)

/-- A product of numbers goes on to the end of the chain. -/
theorem more_product (h : engine.Declared) (hstop : Proper engine stop)
    (hbound : stop.minPrec ≤ 390) (factors : List Char) {letters : List Char}
    (hletters : ∀ c ∈ letters, c.isAlpha = true) :
    more engine stop (.call () "Multiply" (factors.map letterSymbol)) (crossTokens letters) =
      pure (.call () "Multiply" ((factors ++ letters).map letterSymbol), []) := by
  induction letters generalizing factors with
  | nil =>
    rw [List.append_nil]
    exact more_nil _
  | cons c letters ih =>
    have hrhs := expression_first h (hstop.withMinPrec 391) (Nat.lt_succ_self 390)
      (hletters c List.mem_cons_self) letters
    rw [← more_skipSpace h.accepted, skipSpace_crossTokens,
      more_numbers h hstop hbound (accept_sets_of_left (h.isSet_multiply _)) hrhs,
      call_multiply_snoc h, more_skipSpace h.accepted,
      ih (factors ++ [c]) fun d hd => hletters d (List.mem_cons_of_mem c hd)]
    simp

/-- Where the product of sets is rejected a letter and all that follows is one product of
    numbers. -/
theorem more_rejected (h : engine.Declared) (hstop : Proper engine stop)
    (hbound : stop.minPrec ≤ 390) {c d : Char} {letters : List Char}
    (hletters : ∀ x ∈ d :: letters, x.isAlpha = true)
    (hrejects : accept engine engine.host (expression engine engine.host) (some (letterSymbol c))
      stop (skipSpace (crossTokens (d :: letters)))
      ⟨crossOfSets, 1, .space :: .char d :: crossTokens letters⟩ = pure none) :
    more engine stop (letterSymbol c) (crossTokens (d :: letters)) =
      pure (numberProduct (letterSymbol c) ((d :: letters).map letterSymbol), []) := by
  have hrhs := expression_first h (hstop.withMinPrec 391) (Nat.lt_succ_self 390)
    (hletters d List.mem_cons_self) letters
  have hpair : engine.call "Multiply" [letterSymbol c, letterSymbol d] =
      .call () "Multiply" ([c, d].map letterSymbol) := call_multiply_letters [c, d]
  rw [skipSpace_crossTokens] at hrejects
  rw [← more_skipSpace h.accepted, skipSpace_crossTokens,
    more_numbers h hstop hbound hrejects hrhs, hpair, more_skipSpace h.accepted,
    more_product h hstop hbound [c, d] fun x hx => hletters x (List.mem_cons_of_mem d hx)]
  rfl

end

theorem crossValue_cons_of_all {c d : Char} {letters : List Char}
    (hc : engine.isSet (letterSymbol c) = true)
    (hrest : (d :: letters).all (fun c => engine.isSet (letterSymbol c)) = true) :
    crossValue engine c (d :: letters) =
      .call () "CartesianProduct" [letterSymbol c, crossValue engine d letters] := by
  have hall : (c :: d :: letters).all (fun c => engine.isSet (letterSymbol c)) = true := by
    rw [List.all_cons, hc, hrest, Bool.and_true]
  rw [crossValue, if_pos hall, crossValue, if_pos hrest]
  rfl

theorem crossValue_cons_of_not_all {c : Char} {letters : List Char}
    (hnot : (c :: letters).all (fun c => engine.isSet (letterSymbol c)) = false) :
    crossValue engine c letters = numberProduct (letterSymbol c) (letters.map letterSymbol) := by
  rw [crossValue, if_neg (by simp [hnot])]

theorem call_cartesianProduct (h : engine.Declared) (c d : Char) (letters : List Char) :
    engine.call "CartesianProduct" [letterSymbol c, crossValue engine d letters] =
      .call () "CartesianProduct" [letterSymbol c, crossValue engine d letters] := by
  have hbare : (crossValue engine d letters).isGrouping = false := by
    unfold crossValue
    split
    · cases letters with
      | nil => rfl
      | cons x letters => simp [setProduct, Tree.isGrouping_call]
    · cases letters with
      | nil => rfl
      | cons x letters => simp [numberProduct, Tree.isGrouping_call]
  apply Engine.call_of_none
  · intro op hop
    rcases List.mem_pair.mp hop with rfl | rfl
    · rfl
    · exact hbare
  · intro hassociative
    rw [h.associative_cartesianProduct] at hassociative
    cases hassociative

/-- **A chain is read as its value**, by any expression that the cross binds tightly enough for.
    The induction is on the chain: what stands behind the first cross is a shorter one. -/
theorem more_crosses (h : engine.Declared) {stop : Terminator} (hstop : Proper engine stop)
    (hbound : stop.minPrec ≤ 390) {c : Char} {letters : List Char}
    (hletters : ∀ d ∈ letters, d.isAlpha = true) :
    more engine stop (letterSymbol c) (crossTokens letters) =
      pure (crossValue engine c letters, []) := by
  induction letters generalizing stop c with
  | nil =>
    have hvalue : crossValue engine c [] = letterSymbol c := by
      unfold crossValue
      split <;> rfl
    rw [crossTokens, more_nil, hvalue]
  | cons d letters ih =>
    -- what the product of sets reads behind the cross
    have hproper : Proper engine (stop.withMinPrec cartesianPrecedence) :=
      hstop.withMinPrec cartesianPrecedence
    have hrhs : expression engine engine.host (stop.withMinPrec cartesianPrecedence)
        (.space :: .char d :: crossTokens letters) =
          pure (some (crossValue engine d letters), []) := by
      have hd : d.isAlpha = true := hletters d List.mem_cons_self
      rw [← expression_skipSpace h.accepted, skipSpace_blank_letter,
        expression_letter h hproper hd (apart_crossTokens letters), completed,
        ih hproper (Nat.le_refl 390) fun x hx => hletters x (List.mem_cons_of_mem d hx)]
      rfl
    have hset := isSet_crossValue h d letters
    cases hleft : engine.isSet (letterSymbol c) with
    | false =>
      rw [more_rejected h hstop hbound hletters (accept_sets_of_left hleft),
        crossValue_cons_of_not_all]
      rw [List.all_cons, hleft, Bool.false_and]
    | true =>
      cases hright : engine.isSet (crossValue engine d letters) with
      | false =>
        rw [more_rejected h hstop hbound hletters, crossValue_cons_of_not_all]
        · rw [List.all_cons, ← hset, hright, Bool.and_false]
        · rw [accept_sets_of_right hleft hrhs, hright]
          rfl
      | true =>
        rw [hright] at hset
        rw [← more_skipSpace h.accepted, skipSpace_crossTokens,
          more_sets h hstop hbound hleft hrhs hright, call_cartesianProduct h, more_nil,
          crossValue_cons_of_all hleft hset.symm]

/-! ### The source of a chain -/

theorem scans_cross_letter {c : Char} (hc : c.isAlpha = true) :
    Scans (" \\times ".toList ++ [c]) [.space, cross, .space, .char c] := by
  intro after
  have hcommand : Token.scan ("\\times".toList ++ (' ' :: c :: after)) =
      cross :: Token.scan (' ' :: c :: after) :=
    @scan_command "times".toList (' ' :: c :: after) (by decide)
      (List.all_eq_true.mp (by decide)) rfl
  have hblank : Token.scan (' ' :: '\\' :: ("times".toList ++ (' ' :: c :: after))) =
      .space :: Token.scan ('\\' :: ("times".toList ++ (' ' :: c :: after))) := by
    rw [Token.scan, if_neg (by decide), if_pos (by decide)]
    rfl
  have hletter : Token.scan (' ' :: c :: after) = .space :: Token.scan (c :: after) :=
    scan_space_letter hc
  have hchar : Token.scan (c :: after) = .char c :: Token.scan after :=
    scans_char (ordinary_of_isAlpha hc) after
  calc Token.scan ((" \\times ".toList ++ [c]) ++ after)
      = .space :: Token.scan ("\\times".toList ++ (' ' :: c :: after)) := hblank
    _ = .space :: cross :: .space :: .char c :: Token.scan after := by
      rw [hcommand, hletter, hchar]

theorem intercalate_crosses (c : Char) (letters : List Char) :
    (" \\times ".intercalate ((c :: letters).map String.singleton)).toList =
      c :: letters.flatMap fun d => " \\times ".toList ++ [d] := by
  induction letters generalizing c with
  | nil => simp
  | cons d letters ih =>
    rw [List.map_cons, List.map_cons, String.intercalate_cons_cons, String.toList_append,
      String.toList_append, ← List.map_cons, ih d, String.toList_singleton, List.flatMap_cons]
    simp only [List.append_assoc, List.cons_append, List.nil_append]

theorem tokenize_crosses {c : Char} {letters : List Char}
    (hletters : ∀ d ∈ c :: letters, d.isAlpha = true) :
    tokenize (" \\times ".intercalate ((c :: letters).map String.singleton)) =
      .char c :: crossTokens letters := by
  have hmore : Scans (letters.flatMap fun d => " \\times ".toList ++ [d])
      (crossTokens letters) := by
    have hrest : ∀ d ∈ letters, d.isAlpha = true := fun d hd =>
      hletters d (List.mem_cons_of_mem c hd)
    clear hletters
    induction letters with
    | nil => exact scans_nil
    | cons d letters ih =>
      have htail := ih fun x hx => hrest x (List.mem_cons_of_mem d hx)
      exact (scans_cross_letter (hrest d List.mem_cons_self)).append htail
  have hfirst := scans_char (ordinary_of_isAlpha (hletters c List.mem_cons_self))
  apply Scans.tokenize_eq
  rw [intercalate_crosses]
  exact hfirst.append hmore

theorem parseTokens_crosses (h : engine.Declared) {c : Char} {letters : List Char}
    (hletters : ∀ d ∈ c :: letters, d.isAlpha = true) :
    engine.parseTokens (.char c :: crossTokens letters) = crossValue engine c letters := by
  have hmore : more engine {} (letterSymbol c) (crossTokens letters) =
      pure (crossValue engine c letters, []) :=
    more_crosses h proper_default (Nat.zero_le 390)
      (fun d hd => hletters d (List.mem_cons_of_mem c hd))
  apply parseTokens_of_expression h.accepted
  rw [expression_letter h proper_default (hletters c List.mem_cons_self) (apart_crossTokens _),
    completed, hmore]
  rfl

/-- **Crosses are products of sets all along a chain, or not at all.**  Whatever domains are
    declared for symbols, a chain of crosses between letters is the product of sets, grouped to
    the right, if every letter denotes a set, and one flat product of numbers if one of them does
    not, wherever it stands. -/
theorem parse_crosses (declarations : List (String × Literal)) (first second : Char)
    (letters : List Char) (hletters : ∀ c ∈ first :: second :: letters, c.isAlpha = true) :
    (Engine.standard.declareSymbols declarations).parse
        (" \\times ".intercalate ((first :: second :: letters).map String.singleton)) =
      if (first :: second :: letters).all fun c =>
          (Engine.standard.declareSymbols declarations).isSet (letterSymbol c) then
        setProduct (letterSymbol first) ((second :: letters).map letterSymbol)
      else .call () "Multiply" ((first :: second :: letters).map letterSymbol) := by
  have h := Engine.declared_declareSymbols declarations
  rw [Engine.parse, tokenize_crosses hletters, parseTokens_crosses h hletters, crossValue]
  rfl

/-- One number behind two sets makes all three factors; a set there makes a product of sets. -/
theorem parse_crosses_mixed :
    (∀ c ∈ ['A', 'B', 'x'], c.isAlpha = true) ∧ (∀ c ∈ ['A', 'B', 'A'], c.isAlpha = true) ∧
    (Engine.standard.declareSymbols [("A", .sets), ("B", .sets)]).parse "A \\times B \\times x" =
      .call () "Multiply" [.symbol "A", .symbol "B", .symbol "x"] ∧
    (Engine.standard.declareSymbols [("A", .sets), ("B", .sets)]).parse "A \\times B \\times A" =
      .call () "CartesianProduct"
        [.symbol "A", .call () "CartesianProduct" [.symbol "B", .symbol "A"]] := by
  have hnumber : ∀ c ∈ ['A', 'B', 'x'], c.isAlpha = true := List.all_eq_true.mp (by decide)
  have hset : ∀ c ∈ ['A', 'B', 'A'], c.isAlpha = true := List.all_eq_true.mp (by decide)
  refine ⟨hnumber, hset, ?_, ?_⟩
  · have hparse := parse_crosses [("A", .sets), ("B", .sets)] 'A' 'B' ['x'] hnumber
    rw [if_neg (by decide +kernel)] at hparse
    exact hparse
  · have hparse := parse_crosses [("A", .sets), ("B", .sets)] 'A' 'B' ['A'] hset
    rw [if_pos (by decide +kernel)] at hparse
    exact hparse

end Formula
