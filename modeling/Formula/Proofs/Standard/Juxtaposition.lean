import Formula.Proofs.Reader.Lockstep
import Formula.Proofs.Reader.NormalForm
import Formula.Proofs.Reader.Padding
import Formula.Proofs.Standard.Crosses

/-!
  **Factors side by side.**

  Two factors side by side are a product, and a product may as well be written with a dot between
  them.  In formulas of letters, digits and the signs of arithmetic the two are read alike.

  Without the dot the reader finds no operator behind the first factor and reads a product all the
  same; with it the dot is the only operator there, and it binds as the product without a sign does.
  The two formulas part for a moment only: where an expression that asks for operators that bind
  more tightly than a product ends behind the first factor, the one goes on with the second factor
  and the other with the dot.  The expression around it then reads the product in both.
-/

namespace Formula

open Reader

/-- Letters, digits, the signs of arithmetic, parentheses, braces and blanks. -/
def Token.isAlgebraic : Token → Bool
  | .char c => Text.isAlphabetic c || c.isDigit || ".+-*/^_=<>,()".toList.contains c
  | .command _ => false
  | _ => true

/-- A letter, a digit or an opening parenthesis. -/
def Token.startsFactor (t : Token) : Bool := t.isAlphanum || t == .char '('

/-- A letter or a digit in front of another one or of a parenthesis; two digits are one number. -/
def Token.Factors (x y : Token) : Prop :=
  x.isAlphanum = true ∧ y.startsFactor = true ∧ ¬ (x.isDigit = true ∧ y.isDigit = true)

/-- The dot of a product. -/
def dot : Token := .command "\\cdot"

/-- The same tokens with dots between factors. -/
inductive Dotted : List Token → List Token → Prop where
  | nil : Dotted [] []
  | keep (t : Token) {s s' : List Token} (h : Dotted s s') : Dotted (t :: s) (t :: s')
  | dot {x y : Token} (hxy : x.Factors y) {s s' : List Token} (h : Dotted (y :: s) (y :: s')) :
      Dotted (x :: y :: s) (x :: dot :: y :: s')

/-- The place between two factors, in front of the dot in the one formula. -/
inductive Pending : List Token → List Token → Prop where
  | intro {y : Token} (hy : y.startsFactor = true) {s s' : List Token}
      (h : Dotted (y :: s) (y :: s')) : Pending (y :: s) (dot :: y :: s')

namespace Dotted

variable {s s' : List Token}

theorem refl (s : List Token) : Dotted s s := by
  induction s with
  | nil => exact .nil
  | cons t s ih => exact .keep t ih

/-- One dot between two factors. -/
theorem insert {x y : Token} (hxy : x.Factors y) (before after : List Token) :
    Dotted (before ++ x :: y :: after) (before ++ x :: Formula.dot :: y :: after) := by
  induction before with
  | nil => exact .dot hxy (refl _)
  | cons t before ih => exact .keep t ih

theorem head?_eq (h : Dotted s s') : s.head? = s'.head? := by
  cases h <;> rfl

theorem isEmpty_eq (h : Dotted s s') : s.isEmpty = s'.isEmpty := by
  cases h <;> rfl

/-- Behind the next token, or between it and the next factor. -/
theorem tail {t t' : Token} (h : Dotted (t :: s) (t' :: s')) :
    t' = t ∧ (Dotted s s' ∨ t.isAlphanum = true ∧ Pending s s') := by
  cases h with
  | keep t h => exact ⟨rfl, Or.inl h⟩
  | dot hxy h => exact ⟨rfl, Or.inr ⟨hxy.1, .intro hxy.2.1 h⟩⟩

/-- Behind a token that is no factor. -/
theorem tail_of_not {t t' : Token} (ht : t.isAlphanum = false) (h : Dotted (t :: s) (t' :: s')) :
    Dotted s s' := by
  rcases h.tail.2 with h | ⟨hfactor, -⟩
  · exact h
  · rw [ht] at hfactor
    cases hfactor

theorem dropWhile {test : Token → Bool} (htest : ∀ t, test t = true → t.isAlphanum = false)
    (h : Dotted s s') : Dotted (s.dropWhile test) (s'.dropWhile test) := by
  induction h with
  | nil => exact .nil
  | @keep t s s' h ih =>
    by_cases ht : test t = true
    · rw [List.dropWhile_cons_of_pos ht, List.dropWhile_cons_of_pos ht]
      exact ih
    · rw [List.dropWhile_cons_of_neg ht, List.dropWhile_cons_of_neg ht]
      exact .keep t h
  | @dot x y hxy s s' h _ =>
    have hx : ¬ test x = true := by
      intro hx
      have hfactor := hxy.1
      rw [htest x hx] at hfactor
      cases hfactor
    rw [List.dropWhile_cons_of_neg hx, List.dropWhile_cons_of_neg hx]
    exact .dot hxy h

end Dotted

/-! ### Patterns and numerals -/

/-- The pattern starts with a command, or no factor is in it: dots make no difference to it. -/
def Indifferent (p : List Token) : Bool :=
  p.head?.any (fun t => !t.isAlgebraic) || p.all fun t => !t.isAlphanum

theorem matchTokens_of_head_ne {p s : List Token} {t : Token} (hp : p ≠ [])
    (h : p.head? ≠ some t) : matchTokens p (t :: s) = none := by
  cases p with
  | nil => exact absurd rfl hp
  | cons q ps =>
    have hne : t ≠ q := by
      rintro rfl
      exact h rfl
    cases ps <;> rw [matchTokens, if_neg hne]

theorem isAlphanum_of_isSpace (t : Token) (h : t.isSpace = true) : t.isAlphanum = false := by
  cases t <;> first | rfl | cases h

/-- A pattern without factors stands in both formulas or in none. -/
theorem matchTokens_dotted {p : List Token} (hp : ∀ t ∈ p, t.isAlphanum = false)
    {s s' : List Token} (h : Dotted s s') :
    Option.Rel Dotted (matchTokens p s) (matchTokens p s') := by
  induction p generalizing s s' with
  | nil => exact .some h
  | cons q ps ih =>
    have hq : q.isAlphanum = false := hp q List.mem_cons_self
    have hps : ∀ t ∈ ps, t.isAlphanum = false := fun t ht => hp t (List.mem_cons_of_mem q ht)
    cases s with
    | nil =>
      cases h
      cases ps <;> exact .none
    | cons t s =>
      obtain ⟨t', v', rfl⟩ : ∃ t' v', s' = t' :: v' := by
        cases h
        · exact ⟨_, _, rfl⟩
        · exact ⟨_, _, rfl⟩
      obtain ⟨rfl, -⟩ := h.tail
      by_cases ht : t' = q
      · subst ht
        have htail := h.tail_of_not hq
        cases ps with
        | nil =>
          rw [matchTokens, matchTokens, if_pos rfl, if_pos rfl]
          exact .some htail
        | cons r ps =>
          rw [matchTokens, matchTokens, if_pos rfl, if_pos rfl]
          exact ih hps (htail.dropWhile isAlphanum_of_isSpace)
      · rw [matchTokens_of_head_ne (List.cons_ne_nil q ps) (by simpa using Ne.symm ht),
          matchTokens_of_head_ne (List.cons_ne_nil q ps) (by simpa using Ne.symm ht)]
        exact .none

theorem matchTokens_indifferent {p : List Token} (hp : Indifferent p = true) {s s' : List Token}
    (hs : ∀ t ∈ s, t.isAlgebraic = true) (h : Dotted s s') :
    Option.Rel Dotted (matchTokens p s) (matchTokens p s') := by
  rw [Indifferent, Bool.or_eq_true, List.all_eq_true] at hp
  rcases hp with hcommand | hwithout
  · obtain ⟨q, hq, hother⟩ := (Option.any_eq_true _ _).mp hcommand
    obtain ⟨ps, rfl⟩ := List.head?_eq_some_iff.mp hq
    have hnone : ∀ {u : List Token}, u.head? = s.head? → matchTokens (q :: ps) u = none := by
      intro u hu
      cases u with
      | nil => cases ps <;> rfl
      | cons t u =>
        apply matchTokens_of_head_ne (List.cons_ne_nil q ps)
        intro hhead
        obtain rfl : q = t := Option.some.inj hhead
        rw [hs q (List.mem_of_head? hu.symm)] at hother
        cases hother
    rw [hnone rfl, hnone h.head?_eq.symm]
    exact .none
  · exact matchTokens_dotted (fun t ht => by simpa using hwithout t ht) h

/-- Behind digits, and maybe in front of the dot behind them. -/
theorem digits_dotted {s s' : List Token} (h : Dotted s s') :
    s.takeWhile Token.isDigit = s'.takeWhile Token.isDigit ∧
      (Dotted (s.dropWhile Token.isDigit) (s'.dropWhile Token.isDigit) ∨
        Pending (s.dropWhile Token.isDigit) (s'.dropWhile Token.isDigit)) := by
  induction h with
  | nil => exact ⟨rfl, Or.inl .nil⟩
  | @keep t s s' h ih =>
    by_cases ht : t.isDigit = true
    · simp only [List.takeWhile_cons_of_pos ht, List.dropWhile_cons_of_pos ht, ih.1]
      exact ⟨trivial, ih.2⟩
    · simp only [List.takeWhile_cons_of_neg ht, List.dropWhile_cons_of_neg ht]
      exact ⟨trivial, Or.inl (.keep t h)⟩
  | @dot x y hxy s s' h _ =>
    by_cases hx : x.isDigit = true
    · -- the digits end here, since what follows a digit side by side is no digit
      have hy : ¬ y.isDigit = true := fun hy => hxy.2.2 ⟨hx, hy⟩
      have hdot : ¬ dot.isDigit = true := by decide
      simp only [List.takeWhile_cons_of_pos hx, List.dropWhile_cons_of_pos hx,
        List.takeWhile_cons_of_neg hy, List.dropWhile_cons_of_neg hy,
        List.takeWhile_cons_of_neg hdot, List.dropWhile_cons_of_neg hdot]
      exact ⟨trivial, Or.inr (.intro hxy.2.1 h)⟩
    · simp only [List.takeWhile_cons_of_neg hx, List.dropWhile_cons_of_neg hx]
      exact ⟨trivial, Or.inl (.dot hxy h)⟩

/-- A numeral is the same number, and it ends in front of a dot as in front of the factor. -/
theorem numeral_dotted {s s' : List Token} (h : Dotted s s') :
    (numeral s).1 = (numeral s').1 ∧
      (Dotted (numeral s).2 (numeral s').2 ∨ Pending (numeral s).2 (numeral s').2) := by
  obtain ⟨htake, hrest⟩ := digits_dotted h
  have hwhole : digitsOf s = digitsOf s' := by
    rw [digitsOf, digitsOf, htake]
  have hnot : ∀ {u u' : List Token}, Dotted u u' → u.head? ≠ some (.char '.') →
      u'.head? ≠ some (.char '.') := by
    intro u u' hu hpoint
    rwa [← hu.head?_eq]
  by_cases hpoint : (s.dropWhile Token.isDigit).head? = some (.char '.')
  · have hafter : Dotted (s.dropWhile Token.isDigit) (s'.dropWhile Token.isDigit) := by
      rcases hrest with hafter | hpending
      · exact hafter
      · generalize s.dropWhile Token.isDigit = u at hpoint hpending
        generalize s'.dropWhile Token.isDigit = u' at hpending
        cases hpending with
        | intro hy _ =>
          cases hpoint
          cases hy
    obtain ⟨more, hmore⟩ := List.head?_eq_some_iff.mp hpoint
    obtain ⟨more', hmore'⟩ := List.head?_eq_some_iff.mp (hafter.head?_eq ▸ hpoint)
    rw [hmore, hmore'] at hafter
    have hfraction : Dotted more more' := hafter.tail_of_not (by decide)
    obtain ⟨hdigits, hend⟩ := digits_dotted hfraction
    rw [numeral_of_point hmore, numeral_of_point hmore', hwhole, hfraction.head?_eq, hmore, hmore']
    split
    · rw [digitsOf, digitsOf, digitsOf, hdigits]
      exact ⟨rfl, hend⟩
    · exact ⟨rfl, Or.inl hafter⟩
  · have hpoint' : (s'.dropWhile Token.isDigit).head? ≠ some (.char '.') := by
      rcases hrest with hafter | hpending
      · exact hnot hafter hpoint
      · generalize s.dropWhile Token.isDigit = u at hpending
        generalize s'.dropWhile Token.isDigit = u' at hpending ⊢
        cases hpending
        simp [dot]
    rw [numeral_of_not hpoint, numeral_of_not hpoint', hwhole]
    exact ⟨rfl, hrest⟩

/-! ### The standard notations -/

/-- Every trigger starts with a command or has no factor in it. -/
theorem indifferent_standardEntries :
    ∀ entry ∈ (standardEntries : List (Entry Unit)),
      (∀ trigger ∈ entry.matchedTriggers, Indifferent trigger.tokens = true) ∧
        ∀ close ∈ entry.close, Indifferent close.tokens = true := by
  have htable : (standardEntries : List (Entry Unit)).all (fun entry =>
      (entry.matchedTriggers ++ entry.close.toList).all fun trigger => Indifferent trigger.tokens) =
        true := by
    decide +kernel
  intro entry hentry
  have hall := List.all_eq_true.mp (List.all_eq_true.mp htable entry hentry)
  exact ⟨fun trigger h => hall trigger (List.mem_append_left _ h),
    fun close h => hall close (List.mem_append_right _ (Option.mem_toList.mpr h))⟩

/-- The dot and the parenthesis are triggers of one notation each. -/
theorem alone_dot :
    Alone standardEntries [.infixOp, .postfixOp] dot [] ∧
      Alone standardEntries [.symbol, .prefixOp, .matchfix] (.char '(') [] := by
  decide +kernel

namespace Juxtaposition

/-- No operator starts as a factor does. -/
theorem candidates_factor {y : Token} (hy : y.startsFactor = true) (v : List Token) :
    (Engine.standard : Engine Unit).dictionary.candidates (y :: v) [.infixOp, .postfixOp] = [] := by
  have htable : (standardEntries : List (Entry Unit)).all (fun entry =>
      !decide (entry.kind ∈ [Kind.infixOp, .postfixOp]) || entry.matchedTriggers.all fun trigger =>
        !trigger.tokens.head?.any Token.startsFactor) = true := by
    decide +kernel
  rw [List.eq_nil_iff_forall_not_mem]
  intro found hfound
  obtain ⟨first, more, heq, reading, hreading, hkind, -⟩ := Dictionary.mem_candidates hfound
  cases heq
  obtain ⟨hentry, htrigger, hhead⟩ := Dictionary.indexed_standard.mem_readings hreading
  have hnone := List.all_eq_true.mp htable _ hentry
  rw [decide_eq_true hkind, Bool.not_true, Bool.false_or] at hnone
  have hother := List.all_eq_true.mp hnone _ htrigger
  rw [hhead] at hother
  simp [hy] at hother

/-- A factor neither ends an expression nor is a blank. -/
theorem opens_factor {y : Token} (hy : y.startsFactor = true) : Opens Engine.standard y := by
  have hcloser : (standardEntries : List (Entry Unit)).any
      (Entry.closesWith (.char '(')) = false := by
    decide +kernel
  rw [Token.startsFactor, Bool.or_eq_true, beq_iff_eq] at hy
  rcases hy with hy | rfl
  · cases y with
    | char c =>
      apply opens_of_free (Engine.free_standard hy)
      rintro rfl
      exact absurd hy (by decide)
    | _ => cases hy
  · exact ⟨rfl, rfl, by rw [Dictionary.indexed_standard.closer_eq, hcloser]⟩

theorem only_dot (v : List Token) :
    ∃ consumed, (Engine.standard : Engine Unit).dictionary.candidates (dot :: v)
      [.infixOp, .postfixOp] = [⟨crossOfNumbers, consumed, v⟩] := by
  have hmem : crossOfNumbers ∈ (standardEntries : List (Entry Unit)) := by
    simp [standardEntries, Standard.arithmeticEntries, Standard.operatorEntries, crossOfNumbers]
  have htrigger : Trigger.ofLatex "\\cdot" ∈ crossOfNumbers.matchedTriggers := List.mem_cons_self
  have honly := only_standard hmem htrigger (by decide) cdot_tokens alone_dot.1 v
  have hfound := honly.found
  rwa [cdot_tokens] at hfound

theorem opens_dot : Opens Engine.standard dot := by
  obtain ⟨⟨hspacing, hboundary, hcloser, -⟩, -⟩ := alone_dot.1
  exact ⟨hspacing, hboundary, by rw [Dictionary.indexed_standard.closer_eq, hcloser]⟩

/-- A character that starts no operator is read, if only as an error. -/
theorem exists_unclaimed {engine : Engine Unit} {c : Char} {v : List Token}
    (hoperator : atOperator engine.dictionary (.char c :: v) = false) :
    ∃ e rest, unclaimed engine engine.host (expression engine engine.host) (.char c)
      (.char c :: v) = pure (some (e, rest)) := by
  have hbegin : (Token.char c).isCommand "\\begin" = false := rfl
  have hleft : (Token.char c).isCommand "\\left" = false := rfl
  unfold unclaimed
  simp only [hbegin, hleft, hoperator, Bool.false_eq_true, if_false]
  split
  · exact ⟨_, _, rfl⟩
  · split
    · exact ⟨_, _, rfl⟩
    · exact ⟨_, _, rfl⟩

/-- What a pair of triggers encloses is read, if only as an error. -/
theorem exists_accepted_matchfix (engine : Engine Unit) (stop : Terminator) (start : List Token)
    {found : TriggerMatch Unit} (hkind : found.entry.kind = .matchfix)
    (hrule : found.entry.isCustom = false) {head : String}
    (hhead : found.entry.head? = some head) :
    ∃ e rest, firstAccepted engine engine.host (expression engine engine.host) none stop start
      [found] = pure (some (e, rest)) := by
  rw [firstAccepted_cons, accept_eq_byKind hrule, byKind, hhead]
  simp only [hkind]
  exact ⟨_, _, rfl⟩

/-- The notation of a part in parentheses. -/
def parenthesized : Entry Unit := .matchfix "Delimiter" "(" ")"

theorem only_parenthesis (v : List Token) :
    ∃ consumed, (Engine.standard : Engine Unit).dictionary.candidates (.char '(' :: v)
      [.symbol, .prefixOp, .matchfix] = [⟨parenthesized, consumed, v⟩] := by
  have hmem : parenthesized ∈ (standardEntries : List (Entry Unit)) := by
    simp [standardEntries, Standard.arithmeticEntries, Standard.structureEntries, parenthesized]
  have htokens : (Trigger.ofLatex "(").tokens = [.char '('] := by decide +kernel
  have htrigger : Trigger.ofLatex "(" ∈ parenthesized.matchedTriggers := List.mem_cons_self
  have honly := only_standard hmem htrigger (by decide) htokens alone_dot.2 v
  have hfound := honly.found
  rwa [htokens] at hfound

/-- A letter or a digit is read as itself, and a parenthesis with what it encloses. -/
theorem exists_primary {stop : Terminator} {y : Token} (hy : y.startsFactor = true)
    (v : List Token)
    (hgoes : atTerminator (Engine.standard : Engine Unit).dictionary stop (y :: v) = false) :
    ∃ e rest, primary Engine.standard Engine.standard.host
      (expression Engine.standard Engine.standard.host) stop (y :: v) = pure (some e, rest) := by
  have hskip : skipSpace (y :: v) = y :: v := skipSpace_cons_of_not _ (opens_factor hy).spacing
  have hoperator : atOperator (Engine.standard : Engine Unit).dictionary (y :: v) = false := by
    rw [atOperator, Dictionary.lookup?, candidates_factor hy]
    rfl
  unfold primary
  simp only [hskip, hgoes, Bool.false_eq_true, if_false]
  rw [Token.startsFactor, Bool.or_eq_true, beq_iff_eq] at hy
  rcases hy with hy | rfl
  · cases y with
    | char c =>
      have hfound : (Engine.standard : Engine Unit).dictionary.candidates (.char c :: v)
          [.symbol, .prefixOp, .matchfix] = [] :=
        Dictionary.candidates_of_no_readings (Engine.free_standard hy).readings v _
      obtain ⟨e, rest, hread⟩ := exists_unclaimed hoperator
      rw [hfound, firstAccepted]
      simp only [hread, pure_bind]
      exact ⟨e, rest, rfl⟩
    | _ => cases hy
  · obtain ⟨consumed, hfound⟩ := only_parenthesis v
    have hkind : (⟨parenthesized, consumed, v⟩ : TriggerMatch Unit).entry.kind = .matchfix := rfl
    obtain ⟨e, rest, hread⟩ :=
      exists_accepted_matchfix Engine.standard stop (.char '(' :: v) hkind rfl rfl
    rw [hfound, hread]
    exact ⟨e, rest, rfl⟩

/-- A factor is an expression, whatever follows it. -/
theorem exists_expression (stop : Terminator) {y : Token} (hy : y.startsFactor = true)
    (v : List Token)
    (hgoes : atTerminator (Engine.standard : Engine Unit).dictionary stop (y :: v) = false) :
    ∃ e rest, expression Engine.standard Engine.standard.host stop (y :: v) =
      pure (some e, rest) := by
  obtain ⟨e, rest, hprimary⟩ := exists_primary hy v hgoes
  exact ⟨_, _, expression_of_primary Engine.accepted_standard hprimary⟩

/-! ### The correspondence -/

/-- Tokens of algebra, and the same tokens with dots between factors.  In front of a dot the one
    formula goes on with a factor; an expression that was read with a bound above the precedence of
    products may end there. -/
def dotting : Correspondence where
  Like := Tree.Alike
  Aligned _ bound s s' :=
    (∀ t ∈ s, t.isAlgebraic = true) ∧
      (Dotted s s' ∨ invisiblePrecedence < bound ∧ Pending s s')
  Admits p := Indifferent p = true ∧ p.head?.any (fun t => !t.startsFactor && t != dot) = true
  Seen _ _ := True

variable {depth bound : Nat} {s s' : List Token}

/-- Where an expression may start no dot is left out. -/
theorem dotted_of_aligned (h : dotting.Aligned depth 0 s s') : Dotted s s' := by
  rcases h.2 with h | ⟨hbound, -⟩
  · exact h
  · exact absurd hbound (Nat.not_lt_zero _)

/-- Later places of tokens of algebra correspond if a dot is left out at most in front of them. -/
theorem aligned_of_suffix {rest rest' : List Token} (h : dotting.Aligned depth bound s s')
    (hsuffix : rest <:+ s) (hrest : Dotted rest rest' ∨ Pending rest rest') :
    dotting.Behind depth rest rest' := by
  refine ⟨invisiblePrecedence + 1, fun t ht => h.1 t (hsuffix.subset ht), ?_⟩
  exact hrest.imp_right fun hpending => ⟨Nat.lt_succ_self _, hpending⟩

theorem aligned_of_dotted {rest rest' : List Token} (h : dotting.Aligned depth bound s s')
    (hsuffix : rest <:+ s) (hrest : Dotted rest rest') (inner bound' : Nat) :
    dotting.Aligned inner bound' rest rest' :=
  ⟨fun t ht => h.1 t (hsuffix.subset ht), Or.inl hrest⟩

/-- A pattern between expressions stands in both formulas or in none. -/
theorem pattern_dotting {p : List Token} (hp : Indifferent p = true)
    (h : dotting.Aligned depth 0 s s') :
    Option.Rel (dotting.Aligned depth 0) (matchTokens p s) (matchTokens p s') := by
  have hmatch := matchTokens_indifferent hp h.1 (dotted_of_aligned h)
  generalize hrest : matchTokens p s = rest at hmatch ⊢
  generalize matchTokens p s' = rest' at hmatch ⊢
  cases hmatch with
  | none => exact .none
  | some hmatch => exact .some (aligned_of_dotted h (matchTokens_suffix hrest).1 hmatch depth 0)

theorem atTerminator_of_head {stop : Terminator} (hstop : dotting.Stops stop) {t : Token}
    (ht : Opens (Engine.standard : Engine Unit) t) (hfactor : t.startsFactor = true ∨ t = dot)
    (v : List Token) :
    atTerminator (Engine.standard : Engine Unit).dictionary stop (t :: v) = false := by
  rw [atTerminator, ht.boundary, ht.closer, Bool.or_false, Bool.or_false]
  rw [Option.any_eq_false]
  intro close hclose
  obtain ⟨-, hhead⟩ := hstop close hclose
  rw [matchTokens_of_head_ne]
  · rfl
  · rintro rfl
    cases hhead
  · intro heq
    rw [heq] at hhead
    rcases hfactor with hfactor | rfl
    · simp [hfactor] at hhead
    · simp at hhead

theorem terminator_dotting {stop : Terminator} (hstop : dotting.Stops stop)
    (h : dotting.Flush depth bound s s') :
    atTerminator (Engine.standard : Engine Unit).dictionary stop s =
      atTerminator (Engine.standard : Engine Unit).dictionary stop s' := by
  rcases h.aligned.2 with hdotted | ⟨-, hpending⟩
  · have haligned : dotting.Aligned depth 0 s s' := ⟨h.aligned.1, Or.inl hdotted⟩
    have hclose : ∀ close, stop.close = some close →
        (matchTokens close s).isSome = (matchTokens close s').isSome := by
      intro close hclose
      have hmatch := pattern_dotting (hstop close hclose).1 haligned
      generalize matchTokens close s = rest at hmatch ⊢
      generalize matchTokens close s' = rest' at hmatch ⊢
      cases hmatch <;> rfl
    cases s with
    | nil =>
      cases hdotted
      rfl
    | cons t v =>
      obtain ⟨v', rfl⟩ := List.head?_eq_some_iff.mp hdotted.head?_eq.symm
      cases hstop' : stop.close with
      | none => simp only [atTerminator, hstop', Option.any_none]
      | some close => simp only [atTerminator, hstop', Option.any_some, hclose close hstop']
  · cases hpending with
    | intro hy _ =>
      rw [atTerminator_of_head hstop (opens_factor hy) (Or.inl hy),
        atTerminator_of_head hstop opens_dot (Or.inr rfl)]

/-- Between two factors the product is read with the dot as without it, or by neither. -/
theorem following_pending {limit : Nat} {stop : Terminator} {lhs lhs' : Expr}
    (hinner : dotting.NestedAgree Engine.standard limit) (hstop : dotting.Stops stop)
    (hs : ∀ t ∈ s, t.isAlgebraic = true) (hpending : Pending s s')
    (hgoes : atTerminator (Engine.standard : Engine Unit).dictionary stop s = false)
    (hlimit : s.length < limit) (hlhs : Tree.Alike lhs lhs') :
    Agrees (fun x y => dotting.SameFound depth x y ∧
        (x = none → dotting.Aligned depth stop.minPrec s s'))
      (following Engine.standard stop lhs s) (following Engine.standard stop lhs' s') := by
  cases hpending with
  | @intro y hy v v' hdotted =>
    obtain ⟨consumed, hfound⟩ := only_dot (y :: v')
    have hoptions : (Engine.standard : Engine Unit).options.invisibleOperator = some "Multiply" :=
      rfl
    have hprecedence : crossOfNumbers.precedence = invisiblePrecedence := rfl
    unfold following
    rw [candidates_factor hy, hfound]
    simp only [List.isEmpty_nil, List.isEmpty_cons, if_true, Bool.false_eq_true, if_false]
    unfold juxtaposed
    rw [hoptions]
    by_cases hbound : invisiblePrecedence < stop.minPrec
    · have hnot : ¬ stop.minPrec ≤ crossOfNumbers.precedence := by
        rw [hprecedence]
        omega
      rw [List.filter_cons_of_neg (by simpa using hnot)]
      simp only [if_pos hbound]
      exact .pure ⟨.none, fun _ => ⟨hs, Or.inr ⟨hbound, .intro hy hdotted⟩⟩⟩
    · have hle : stop.minPrec ≤ crossOfNumbers.precedence := by
        rw [hprecedence]
        omega
      -- both read the second factor with the same bound and build the same product
      obtain ⟨e, rest, hread⟩ :=
        exists_expression (stop.withMinPrec (invisiblePrecedence + 1)) hy v hgoes
      have hagree := hinner depth (stop.withMinPrec (invisiblePrecedence + 1)) _ _ hstop
        ⟨hs, Or.inl hdotted⟩ hlimit
      rw [hread] at hagree
      obtain ⟨he, hrest, -⟩ := hagree
      generalize hread' : expression Engine.standard Engine.standard.host
        (stop.withMinPrec (invisiblePrecedence + 1)) (y :: v') = result at he hrest
      obtain ⟨result, rest'⟩ := result
      cases he with
      | @some _ e' he =>
        have haccept : accept Engine.standard Engine.standard.host
            (expression Engine.standard Engine.standard.host) (some lhs') stop (dot :: y :: v')
            ⟨crossOfNumbers, consumed, y :: v'⟩ =
              pure (some ((Engine.standard : Engine Unit).call "Multiply" [lhs', e'], rest')) :=
          accept_numbers hread'
        rw [List.filter_cons_of_pos (by simpa using hle), firstAccepted_cons, haccept]
        simp only [if_neg hbound]
        have hsame : dotting.SameFound depth
            (some ((Engine.standard : Engine Unit).call "Multiply" [lhs, e], rest))
            (some ((Engine.standard : Engine Unit).call "Multiply" [lhs', e'], rest')) :=
          .some ⟨Tree.Alike.engine_call _ _ (.cons hlhs (.cons he .nil)), _, hrest⟩
        simp only [hread, pure_bind, build_eq]
        exact .pure ⟨hsame, fun h => absurd h (Option.some_ne_none _)⟩

/-- What closes a pair of triggers starts neither with a factor nor with a dot. -/
theorem admits_close :
    ∀ entry ∈ (standardEntries : List (Entry Unit)), entry.kind = .matchfix →
      dotting.Admits ((entry.close.map Trigger.tokens).getD []) := by
  have htable : (standardEntries : List (Entry Unit)).all (fun entry =>
      !decide (entry.kind = .matchfix) ||
        ((entry.close.map Trigger.tokens).getD []).head?.any fun t =>
          !t.startsFactor && t != dot) = true := by
    decide +kernel
  intro entry hentry hkind
  have hhead := List.all_eq_true.mp htable entry hentry
  rw [decide_eq_true hkind, Bool.not_true, Bool.false_or] at hhead
  refine ⟨?_, hhead⟩
  cases hclose : entry.close with
  | none => rfl
  | some close => exact (indifferent_standardEntries entry hentry).2 close hclose

/-- No commands are among the tokens. -/
theorem not_isCommand {t : Token} {v : List Token} {s' : List Token}
    (h : dotting.Flush depth bound (t :: v) s') (name : String) : ¬ t.isCommand name = true := by
  rw [isCommand_iff]
  rintro rfl
  have halgebraic := h.aligned.1 (.command name) List.mem_cons_self
  cases halgebraic

/-- Products with and without dots are read in lockstep. -/
theorem lockstep_dotting : dotting.Lockstep (Engine.standard : Engine Unit) where
  like := Correspondence.likeness_alike rfl _
  error _ _ code argument := .source code argument _ _
  script entry hentry handler hparse := by
    rw [Dictionary.indexed_standard.entries_eq] at hentry
    exact Correspondence.sameHandler_standard
      (Correspondence.likeness_alike rfl (Engine.standard : Engine Unit))
      (scripts_standardEntries entry hentry handler hparse)
  tight h _ := ⟨h.1, Or.inl (dotted_of_aligned h)⟩
  outward h := h
  seen _ := trivial
  skipSpace := by
    intro depth bound s s' h
    have hblank : ∀ t, isSpacing t = true → t.isAlphanum = false := by
      intro t ht
      cases t <;> first | rfl | cases ht
    refine ⟨fun t ht => h.1 t ((skipSpace_suffix s).subset ht), ?_⟩
    rcases h.2 with hdotted | ⟨hbound, hpending⟩
    · exact Or.inl (hdotted.dropWhile hblank)
    · refine Or.inr ⟨hbound, ?_⟩
      cases hpending with
      | intro hy hdotted =>
        rw [skipSpace_cons_of_not _ (opens_factor hy).spacing,
          skipSpace_cons_of_not _ opens_dot.spacing]
        exact .intro hy hdotted
  terminator := terminator_dotting
  halted := by
    rintro depth bound stop s s' hstop h hends
    refine ⟨h.aligned.1, Or.inl ?_⟩
    rcases h.aligned.2 with hdotted | ⟨-, hpending⟩
    · exact hdotted
    · cases hpending with
      | intro hy _ =>
        rw [atTerminator_of_head hstop (opens_factor hy) (Or.inl hy)] at hends
        cases hends
  pattern hp h := pattern_dotting hp.1 h.aligned
  cell := ⟨by decide, by decide⟩
  row := ⟨by decide, by decide⟩
  close entry hentry hkind := by
    rw [Dictionary.indexed_standard.entries_eq] at hentry
    exact admits_close entry hentry hkind
  groupEnd h := pattern_dotting rfl h.aligned
  start := by
    intro depth t v s' h
    obtain ⟨v', rfl⟩ := List.head?_eq_some_iff.mp (dotted_of_aligned h.aligned).head?_eq.symm
    exact ⟨t, v', rfl, Or.inl rfl⟩
  candidates := by
    intro depth t v s' kinds h
    obtain ⟨v', rfl⟩ := List.head?_eq_some_iff.mp (dotted_of_aligned h.aligned).head?_eq.symm
    refine ((Engine.standard : Engine Unit).dictionary.candidates_rel
      (R := dotting.Aligned depth 0) fun reading hreading _ => ?_).imp ?_
    · obtain ⟨hentry, htrigger, -⟩ := Dictionary.indexed_standard.mem_readings hreading
      exact pattern_dotting ((indifferent_standardEntries _ hentry).1 _ htrigger) h.aligned
    · rintro found found' ⟨hentry, hafter⟩
      exact ⟨hentry ▸ Entry.Twin.refl found.entry, hafter⟩
  next h _ :=
    aligned_of_suffix h.aligned (List.suffix_cons _ _)
      ((dotted_of_aligned h.aligned).tail.2.imp_right And.right)
  group h :=
    aligned_of_dotted h.aligned (List.suffix_cons _ _)
      ((dotted_of_aligned h.aligned).tail_of_not rfl) _ 0
  numeral h hdigit := by
    obtain ⟨hvalue, hrest⟩ := numeral_dotted (dotted_of_aligned h.aligned)
    exact ⟨hvalue, aligned_of_suffix h.aligned (numeral_past hdigit).1 hrest⟩
  arguments h := absurd ((isCommand_iff _ _).mpr rfl) (not_isCommand h _)
  left h ht := absurd ht (not_isCommand h _)
  blocks h ht := absurd ht (not_isCommand h _)
  right h ht := absurd ht (not_isCommand h _)
  ends h ht := absurd ht (not_isCommand h _)
  drop := by
    intro t t' v v' h hnone
    refine aligned_of_dotted h.aligned (List.suffix_cons _ _) ?_ 0 0
    obtain ⟨-, hdotted | ⟨hfactor, -⟩⟩ := (dotted_of_aligned h.aligned).tail
    · exact hdotted
    · -- a letter or a digit is an expression, so it is not left over
      have hy : t.startsFactor = true := by rw [Token.startsFactor, hfactor, Bool.true_or]
      obtain ⟨e, rest, hread⟩ := exists_expression {} hy v
        (atTerminator_of_opens proper_default (opens_factor hy) v)
      rw [hread] at hnone
      cases hnone
  pending hinner hstop h hgoes hnot hlimit hlhs := by
    obtain ⟨halgebraic, hdotted | ⟨-, hpending⟩⟩ := h.aligned
    · exact absurd ⟨halgebraic, Or.inl hdotted⟩ hnot
    · exact following_pending hinner hstop halgebraic hpending hgoes hlimit hlhs

theorem whole_dotting : dotting.Whole where
  level h := h
  isEmpty h := (dotted_of_aligned h.aligned).isEmpty_eq

end Juxtaposition

open Juxtaposition

/-- **A product may be written with a dot.**  On the standard engine, for all tokens of algebra and
    each place between a letter or a digit and a letter, a digit or an opening parenthesis, two
    digits apart: with a dot there they are read as the same expression but for the sources that its
    errors show. -/
theorem parseTokens_insert_dot {before after : List Token} {x y : Token}
    (halgebraic : ∀ t ∈ before ++ x :: y :: after, t.isAlgebraic = true) (hxy : x.Factors y) :
    (Engine.standard.parseTokens (before ++ x :: dot :: y :: after)).withoutSources =
      (Engine.standard.parseTokens (before ++ x :: y :: after)).withoutSources := by
  have hdotted := Dotted.insert hxy before after
  have hlike : Tree.Alike (Engine.standard.parseTokens (before ++ x :: y :: after))
      (Engine.standard.parseTokens (before ++ x :: dot :: y :: after)) :=
    lockstep_dotting.parseTokens whole_dotting Engine.accepted_standard ⟨halgebraic, Or.inl hdotted⟩
  exact hlike.withoutSources_eq.symm

/-- In `x^2y(` the exponent ends in front of the dot as in front of the letter, and what is missing
    behind the parenthesis is reported alike. -/
theorem parseTokens_insert_dot_power :
    (∀ t ∈ [Token.char 'x', .char '^'] ++ .char '2' :: .char 'y' :: [.char '('],
      t.isAlgebraic = true) ∧
    Token.Factors (.char '2') (.char 'y') ∧
    (Engine.standard.parseTokens
      ([.char 'x', .char '^'] ++ .char '2' :: dot :: .char 'y' :: [.char '('])).withoutSources =
      (Engine.standard.parseTokens
        ([.char 'x', .char '^'] ++ .char '2' :: .char 'y' :: [.char '('])).withoutSources := by
  have hfactors : Token.Factors (.char '2') (.char 'y') := ⟨rfl, rfl, by decide⟩
  exact ⟨by decide, hfactors, parseTokens_insert_dot (by decide) hfactors⟩

end Formula
