import Formula.Proofs.Reader.Phrase
import Formula.Standard

/-!
  **What a bound on operators holds back.**

  The dictionary has operators before and between operands, and the tokens open no group, delimiter
  or block.  What is read is then an `OperatorPhrase`: single operands and operators, with exactly
  the tokens that were taken.

  A bound holds for the operators between operands and is handed on to their right sides, where it
  only rises.  An operator before its operand does not look at the bound that it is read with, and
  puts its own precedence in its place.  So the bound of a reading says nothing about the operators
  in the operand of such an operator: they bind more tightly than that operator, and maybe less
  tightly than the bound.
-/

namespace Formula

open Reader

/-! ### Operators and what they are read as -/

/-- The entry is an operator of the kind with the token for a trigger. -/
structure Entry.StandsAt (entries : List (Entry Unit)) (kind : Kind) (o : Entry Unit)
    (t : Token) : Prop where
  mem : o ∈ entries
  kind_eq : o.kind = kind
  trigger : ∃ trigger ∈ o.triggers, trigger.tokens = [t]

/-- The dictionary of the engine consists of operators before and between operands that are read by
    the rule of their kind, each trigger a single token.  Above every precedence there is another
    one. -/
structure PlainOperators (engine : Engine Unit) (entries : List (Entry Unit)) : Prop where
  accepted : Dictionary.ofEntries entries = .ok engine.dictionary
  rule : ∀ o ∈ entries, o.isCustom = false
  bounded : ∀ o ∈ entries, o.precedence ≤ 65534
  kind : ∀ o ∈ entries, o.kind = .prefixOp ∨ o.kind = .infixOp
  single : ∀ o ∈ entries, ∀ trigger ∈ o.triggers, ∃ t, trigger.tokens = [t]

/-- The token opens no group, delimiter or block. -/
def Token.Flat (t : Token) : Prop :=
  t ≠ .groupStart ∧ t.isCommand "\\begin" = false ∧ t.isCommand "\\left" = false

/-- What is read from operands and operators before and between them. -/
inductive OperatorPhrase where
  | operand (tokens : List Token) (value : Expr)
  /-- The operand that an operator does not find. -/
  | missing
  /-- Two expressions side by side. -/
  | beside (head : String) (lhs rhs : OperatorPhrase)
  | before (operator : Entry Unit) (token : Token) (body : OperatorPhrase)
  | between (operator : Entry Unit) (token : Token) (lhs rhs : OperatorPhrase)

/-- A token that is no operator on the left side of which something stands. -/
def Token.IsOperand (entries : List (Entry Unit)) (t : Token) : Prop :=
  (∃ c, t = .char c ∧ Text.isAlphabetic c = true) ∨
    ∀ o : Entry Unit, ¬ o.StandsAt entries .infixOp t

/-- A numeral, or a single token that is no operator between operands. -/
inductive SingleOperand (entries : List (Entry Unit)) : List Token → Expr → Prop where
  | number {tokens : List Token} {value : Number}
      (digits : ∀ t ∈ tokens, t.isDigit = true ∨ t = .char '.') :
      SingleOperand entries tokens (.number value)
  | symbol {t : Token} {name : String} (operand : t.IsOperand entries) :
      SingleOperand entries [t] (.symbol name)
  | error {t : Token} {code : ErrorCode} {argument source : Option String}
      (operand : t.IsOperand entries) :
      SingleOperand entries [t] (Tree.errorCall code argument source)

namespace OperatorPhrase

def tokens : OperatorPhrase → List Token
  | operand tokens _ => tokens
  | missing => []
  | beside _ lhs rhs => lhs.tokens ++ rhs.tokens
  | before _ t body => t :: body.tokens
  | between _ t lhs rhs => lhs.tokens ++ t :: rhs.tokens

def value (engine : Engine Unit) : OperatorPhrase → Expr
  | operand _ value => value
  | missing => Tree.errorCall .missing none none
  | beside head lhs rhs => engine.call head [lhs.value engine, rhs.value engine]
  | before o _ body => engine.call o.headName [body.value engine]
  | between o _ lhs rhs => engine.call o.headName [lhs.value engine, rhs.value engine]

/-- The phrase consists of operators of the engine, each read with the bound that the one around it
    hands on, and with the given bound at the top. -/
def Climbs (engine : Engine Unit) (entries : List (Entry Unit)) : Nat → OperatorPhrase → Prop
  | _, operand tokens value => SingleOperand entries tokens value
  | _, missing => True
  | bound, beside head lhs rhs =>
    engine.options.invisibleOperator = some head ∧ bound ≤ invisiblePrecedence ∧
      lhs.Climbs engine entries bound ∧ rhs.Climbs engine entries (invisiblePrecedence + 1)
  | _, before o t body =>
    o.StandsAt entries .prefixOp t ∧ body.Climbs engine entries (o.precedence + 1)
  | bound, between o t lhs rhs =>
    o.StandsAt entries .infixOp t ∧ bound ≤ o.precedence ∧ lhs.Climbs engine entries bound ∧
      rhs.Climbs engine entries (rightBound o)

/-- The operators between operands, each with the last operator around it that stands before its
    operand, if there is one. -/
def infixes : Option (Entry Unit) → OperatorPhrase → List (Option (Entry Unit) × Entry Unit)
  | _, operand _ _ => []
  | _, missing => []
  | around, beside _ lhs rhs => lhs.infixes around ++ rhs.infixes around
  | _, before p _ body => body.infixes (some p)
  | around, between o _ lhs rhs => lhs.infixes around ++ (around, o) :: rhs.infixes around

/-- The bound on an operator between operands: that of the reading, or what the last operator
    around it asks of its operand. -/
def lowerBound (bound : Nat) : Option (Entry Unit) → Nat
  | none => bound
  | some p => p.precedence + 1

variable {engine : Engine Unit} {entries : List (Entry Unit)}

/-- Bounds only rise on the way to an operator, from one operator before an operand to the next. -/
theorem Climbs.lowerBound_le (hentries : ∀ o ∈ entries, o.precedence ≤ 65534)
    {φ : OperatorPhrase} {least bound : Nat} {around : Option (Entry Unit)}
    (h : φ.Climbs engine entries bound) (hbound : lowerBound least around ≤ bound) :
    ∀ x ∈ φ.infixes around, lowerBound least x.1 ≤ x.2.precedence := by
  induction φ generalizing bound around with
  | operand tokens value => simp [infixes]
  | missing => simp [infixes]
  | beside head lhs rhs ihl ihr =>
    obtain ⟨-, hloose, hlhs, hrhs⟩ := h
    intro x hx
    rcases List.mem_append.mp hx with hx | hx
    · exact ihl hlhs hbound x hx
    · exact ihr hrhs (by omega) x hx
  | before p t body ih =>
    obtain ⟨-, hbody⟩ := h
    exact ih hbody (Nat.le_refl _)
  | between o t lhs rhs ihl ihr =>
    obtain ⟨ho, hloose, hlhs, hrhs⟩ := h
    have hright := precedence_le_rightBound (hentries o ho.mem)
    intro x hx
    rcases List.mem_append.mp hx with hx | hx
    · exact ihl hlhs hbound x hx
    rcases List.mem_cons.mp hx with rfl | hx
    · exact Nat.le_trans hbound hloose
    · exact ihr hrhs (by omega) x hx

/-- What stands around an operator is an operator of the dictionary. -/
theorem Climbs.mem_of_around {φ : OperatorPhrase} {bound : Nat} {around : Option (Entry Unit)}
    (h : φ.Climbs engine entries bound)
    (haround : ∀ p, around = some p → p ∈ entries ∧ p.kind = .prefixOp) :
    ∀ x ∈ φ.infixes around, ∀ p, x.1 = some p → p ∈ entries ∧ p.kind = .prefixOp := by
  induction φ generalizing bound around with
  | operand tokens value => simp [infixes]
  | missing => simp [infixes]
  | beside head lhs rhs ihl ihr =>
    obtain ⟨-, -, hlhs, hrhs⟩ := h
    intro x hx
    rcases List.mem_append.mp hx with hx | hx
    · exact ihl hlhs haround x hx
    · exact ihr hrhs haround x hx
  | before p t body ih =>
    obtain ⟨hp, hbody⟩ := h
    refine ih hbody ?_
    rintro q ⟨rfl⟩
    exact ⟨hp.mem, hp.kind_eq⟩
  | between o t lhs rhs ihl ihr =>
    obtain ⟨-, -, hlhs, hrhs⟩ := h
    intro x hx
    rcases List.mem_append.mp hx with hx | hx
    · exact ihl hlhs haround x hx
    rcases List.mem_cons.mp hx with rfl | hx
    · exact haround
    · exact ihr hrhs haround x hx

end OperatorPhrase

namespace PlainOperators

variable {engine : Engine Unit} {entries : List (Entry Unit)}

/-! ### What stands at a place -/

theorem standsAt (h : PlainOperators engine entries) {t : Token}
    {tail : List Token} {kinds : List Kind} {found : TriggerMatch Unit}
    (hfound : found ∈ engine.dictionary.candidates (t :: tail) kinds) :
    found.entry.StandsAt entries found.entry.kind t ∧ found.entry.kind ∈ kinds ∧
      found.after = tail := by
  have hindexed := Dictionary.indexed_of_ofEntries h.accepted
  obtain ⟨first, more, heq, reading, hreading, hkind, hmatch⟩ :=
    Dictionary.mem_candidates hfound
  cases heq
  obtain ⟨hmem, htrigger, hhead⟩ := hindexed.mem_readings hreading
  have htriggers : reading.entry.matchedTriggers = reading.entry.triggers := by
    rw [Entry.matchedTriggers, if_neg]
    rcases h.kind _ hmem with hkind | hkind <;> rw [hkind] <;> decide
  rw [htriggers] at htrigger
  obtain ⟨t', htokens⟩ := h.single _ hmem _ htrigger
  rw [htokens] at hhead
  cases hhead
  rw [Reading.match?, htokens, matchTokens, if_pos rfl] at hmatch
  cases hmatch
  exact ⟨⟨hmem, rfl, reading.trigger, htrigger, htokens⟩, hkind, rfl⟩

/-- Where no operator is found none stands. -/
theorem not_standsAt (h : PlainOperators engine entries) {t : Token}
    {tail : List Token} (hnone : atOperator engine.dictionary (t :: tail) = false) :
    ∀ o : Entry Unit, ¬ o.StandsAt entries .infixOp t := by
  rintro o ⟨hmem, hkind, trigger, htrigger, htokens⟩
  have hindexed := Dictionary.indexed_of_ofEntries h.accepted
  have htriggers : o.matchedTriggers = o.triggers := by
    rw [Entry.matchedTriggers, if_neg]
    rw [hkind]
    decide
  have hreading : (⟨o, trigger⟩ : Reading Unit) ∈ engine.dictionary.readings t := by
    rw [hindexed.readings_eq, List.mem_flatMap]
    refine ⟨o, hmem, List.mem_map.mpr ⟨trigger, List.mem_filter.mpr ⟨?_, ?_⟩, rfl⟩⟩
    · rw [htriggers]
      exact htrigger
    · simp [htokens]
  have hfound : (⟨o, (t :: tail).length - tail.length, tail⟩ : TriggerMatch Unit) ∈
      engine.dictionary.candidates (t :: tail) [.infixOp, .postfixOp] := by
    rw [Dictionary.candidates_eq, List.mem_mergeSort, List.mem_filterMap]
    refine ⟨_, hreading, ?_⟩
    rw [if_pos (by simp [hkind]), Reading.match?, htokens, matchTokens, if_pos rfl]
    rfl
  rw [atOperator, Dictionary.lookup?] at hnone
  cases hcandidates : engine.dictionary.candidates (t :: tail) [.infixOp, .postfixOp] with
  | nil =>
    rw [hcandidates] at hfound
    cases hfound
  | cons found others =>
    rw [hcandidates] at hnone
    cases hnone

end PlainOperators

namespace Reader

variable {engine : Engine Unit} {entries : List (Entry Unit)}

/-! ### Places and the tokens between them -/

/-- Between the two places stand those tokens, blanks apart. -/
def Covers (start tokens rest : List Token) : Prop :=
  ∃ taken, start = taken ++ rest ∧ taken.filter (! isSpacing ·) = tokens

namespace Covers

theorem refl (rest : List Token) : Covers rest [] rest := ⟨[], rfl, rfl⟩

theorem trans {start middle rest ts us : List Token} (h : Covers start ts middle)
    (h' : Covers middle us rest) : Covers start (ts ++ us) rest := by
  obtain ⟨taken, rfl, rfl⟩ := h
  obtain ⟨taken', rfl, rfl⟩ := h'
  exact ⟨taken ++ taken', by rw [List.append_assoc], List.filter_append ..⟩

theorem token {t : Token} (ht : isSpacing t = false) (rest : List Token) :
    Covers (t :: rest) [t] rest := ⟨[t], rfl, by simp [ht]⟩

theorem gap (rest : List Token) : Covers rest [] (skipSpace rest) := by
  obtain ⟨gap, hrest, hspacing⟩ := exists_spacing rest
  exact ⟨gap, hrest, List.filter_eq_nil_iff.mpr fun t ht => by simp [hspacing t ht]⟩

theorem flat {start tokens rest : List Token} (h : Covers start tokens rest)
    (hflat : ∀ t ∈ start, t.Flat) : ∀ t ∈ rest, t.Flat := by
  obtain ⟨taken, rfl, -⟩ := h
  exact fun t ht => hflat t (List.mem_append_right taken ht)

end Covers

theorem not_spacing_of_skipSpace {rest tail : List Token} {t : Token}
    (h : skipSpace rest = t :: tail) : isSpacing t = false := by
  have hhead := List.head?_dropWhile_not isSpacing rest
  rw [show rest.dropWhile isSpacing = t :: tail from h] at hhead
  simpa using hhead

/-! ### What the functions of the reader give -/

/-- An expression is read from one place to another as a phrase with the bound. -/
def PhraseRead (engine : Engine Unit) (entries : List (Entry Unit)) (bound : Nat)
    (start : List Token) (e : Expr) (rest : List Token) : Prop :=
  ∃ φ : OperatorPhrase, Covers start φ.tokens rest ∧ φ.value engine = e ∧
    φ.Climbs engine entries bound

/-- What is read is a phrase; where nothing is read only blanks are passed. -/
def Reads (engine : Engine Unit) (entries : List (Entry Unit)) (bound : Nat)
    (start : List Token) : Option Expr × List Token → Prop
  | (none, rest) => Covers start [] rest
  | (some e, rest) => PhraseRead engine entries bound start e rest

variable {inner : Terminator → List Token → Id (Option Expr × List Token)}

/-- The operand of an operator, which may be missing. -/
theorem Reads.orMissing {bound : Nat} {start rest : List Token} {result : Option Expr}
    (h : Reads engine entries bound start (result, rest)) :
    PhraseRead engine entries bound start
      (result.getD (Tree.errorCall .missing none none)) rest := by
  cases result with
  | some e => exact h
  | none => exact ⟨.missing, h, rfl, trivial⟩

section

variable (h : PlainOperators engine entries)
  (hinner : ∀ stop start, (∀ t ∈ start, t.Flat) →
    Reads engine entries stop.minPrec start (Id.run (inner stop start)))

include h hinner

/-- An operator before its operand is read as a phrase with any bound. -/
theorem accept_before {stop : Terminator} {t : Token} {tail : List Token}
    (hspacing : isSpacing t = false) (hflat : ∀ t ∈ tail, t.Flat) {found : TriggerMatch Unit}
    (hfound : found ∈ engine.dictionary.candidates (t :: tail) [.symbol, .prefixOp, .matchfix])
    {e : Expr} {rest : List Token}
    (haccept : accept engine engine.host inner none stop (t :: tail) found = pure (some (e, rest)))
    (bound : Nat) : PhraseRead engine entries bound (t :: tail) e rest := by
  obtain ⟨hstands, hkinds, hafter⟩ := h.standsAt hfound
  have hkind : found.entry.kind = .prefixOp := by
    rcases h.kind _ hstands.mem with hkind | hkind
    · exact hkind
    · rw [hkind] at hkinds
      simp at hkinds
  rw [hkind] at hstands
  rw [accept_eq_byKind (h.rule _ hstands.mem), hafter] at haccept
  cases hhead : found.entry.head? with
  | none =>
    simp only [byKind, hhead] at haccept
    cases haccept
  | some head =>
    simp only [byKind, hhead, hkind, boundAbove_of_le (h.bounded _ hstands.mem), orMissing_eq,
      build_eq, pure_bind] at haccept
    have hread := hinner (stop.withMinPrec (found.entry.precedence + 1)) tail hflat
    generalize inner (stop.withMinPrec (found.entry.precedence + 1)) tail = result
      at haccept hread
    obtain ⟨operand, after⟩ := result
    cases haccept
    obtain ⟨φ, hcovers, hvalue, hclimbs⟩ := Reads.orMissing hread
    refine ⟨.before found.entry t φ, (Covers.token hspacing tail).trans hcovers, ?_,
      hstands, hclimbs⟩
    rw [OperatorPhrase.value, hvalue, Entry.headName, hhead]
    rfl

/-- An operator between operands goes on with what was read before it. -/
theorem accept_between {stop : Terminator} {start : List Token} {t : Token} {tail : List Token}
    (hspacing : isSpacing t = false) (hflat : ∀ t ∈ tail, t.Flat) {lhs : Expr} {bound : Nat}
    (hlhs : PhraseRead engine entries bound start lhs (t :: tail)) {found : TriggerMatch Unit}
    (hfound : found ∈ engine.dictionary.candidates (t :: tail) [.infixOp, .postfixOp])
    (hbound : bound ≤ found.entry.precedence) {e : Expr} {rest : List Token}
    (haccept : accept engine engine.host inner (some lhs) stop (t :: tail) found =
      pure (some (e, rest))) :
    PhraseRead engine entries bound start e rest := by
  obtain ⟨hstands, hkinds, hafter⟩ := h.standsAt hfound
  have hkind : found.entry.kind = .infixOp := by
    rcases h.kind _ hstands.mem with hkind | hkind
    · rw [hkind] at hkinds
      simp at hkinds
    · exact hkind
  rw [hkind] at hstands
  rw [accept_eq_byKind (h.rule _ hstands.mem), hafter] at haccept
  cases hhead : found.entry.head? with
  | none =>
    simp only [byKind, hhead] at haccept
    cases haccept
  | some head =>
    simp only [byKind, hhead, hkind, orMissing_eq, build_eq, pure_bind] at haccept
    have hread := hinner (stop.withMinPrec (rightBound found.entry)) tail hflat
    generalize inner (stop.withMinPrec (rightBound found.entry)) tail = result at haccept hread
    obtain ⟨rhs, after⟩ := result
    cases haccept
    obtain ⟨φ, hcovers, rfl, hclimbs⟩ := hlhs
    obtain ⟨ψ, hcovers', hvalue, hclimbs'⟩ := Reads.orMissing hread
    refine ⟨.between found.entry t φ ψ,
      hcovers.trans ((Covers.token hspacing tail).trans hcovers'), ?_,
      hstands, hbound, hclimbs, hclimbs'⟩
    rw [OperatorPhrase.value, hvalue, Entry.headName, hhead]
    rfl

omit h in
theorem juxtaposed_reads {stop : Terminator} {start rest : List Token}
    (hflat : ∀ t ∈ rest, t.Flat) {lhs : Expr}
    (hlhs : PhraseRead engine entries stop.minPrec start lhs rest) {e : Expr} {after : List Token}
    (hnext : juxtaposed engine engine.host inner lhs stop rest = pure (some (e, after))) :
    PhraseRead engine entries stop.minPrec start e after := by
  unfold juxtaposed at hnext
  split at hnext
  · cases hnext
  · rename_i head hhead
    split at hnext
    · cases hnext
    · rename_i hloose
      have hread := hinner (stop.withMinPrec (invisiblePrecedence + 1)) rest hflat
      generalize inner (stop.withMinPrec (invisiblePrecedence + 1)) rest = result at hnext hread
      obtain ⟨rhs | rhs, after'⟩ := result
      · cases hnext
      · simp only [build_eq] at hnext
        cases hnext
        obtain ⟨φ, hcovers, rfl, hclimbs⟩ := hlhs
        obtain ⟨ψ, hcovers', rfl, hclimbs'⟩ := hread
        exact ⟨.beside head φ ψ, hcovers.trans hcovers', rfl, hhead, by omega, hclimbs, hclimbs'⟩

/-- The operators after an expression make a longer phrase, with the same bound. -/
theorem operators_reads {stop : Terminator} {start : List Token} (hflat : ∀ t ∈ start, t.Flat)
    (fuel : Nat) {lhs : Expr} {rest : List Token}
    (hlhs : PhraseRead engine entries stop.minPrec start lhs rest) :
    PhraseRead engine entries stop.minPrec start
      (Id.run (operators engine engine.host inner stop fuel lhs rest)).1
      (Id.run (operators engine engine.host inner stop fuel lhs rest)).2 := by
  induction fuel generalizing lhs rest with
  | zero => exact hlhs
  | succ fuel ih =>
    have hskip : PhraseRead engine entries stop.minPrec start lhs (skipSpace rest) := by
      obtain ⟨φ, hcovers, hvalue, hclimbs⟩ := hlhs
      have hgap := hcovers.trans (Covers.gap rest)
      rw [List.append_nil] at hgap
      exact ⟨φ, hgap, hvalue, hclimbs⟩
    have hflat' : ∀ t ∈ skipSpace rest, t.Flat := by
      obtain ⟨φ, hcovers, -, -⟩ := hskip
      exact hcovers.flat hflat
    rw [operators]
    dsimp only
    generalize hplace : skipSpace rest = place at hskip hflat' ⊢
    by_cases hend : atTerminator engine.dictionary stop place = true
    · rw [if_pos hend]
      exact hskip
    rw [if_neg hend]
    split
    · have hnext : ∀ e after, juxtaposed engine engine.host inner lhs stop place =
          pure (some (e, after)) → PhraseRead engine entries stop.minPrec start e after :=
        fun _ _ => juxtaposed_reads hinner hflat' hskip
      generalize juxtaposed engine engine.host inner lhs stop place = next at hnext ⊢
      obtain _ | ⟨e, after⟩ := next
      · exact hskip
      · exact ih (hnext e after rfl)
    · have hnext : ∀ e after, firstAccepted engine engine.host inner (some lhs) stop place
          ((engine.dictionary.candidates place [.infixOp, .postfixOp]).filter
            fun candidate => stop.minPrec ≤ candidate.entry.precedence) =
          pure (some (e, after)) → PhraseRead engine entries stop.minPrec start e after := by
        intro e after heq
        obtain ⟨found, hfound, haccept⟩ := exists_accepted heq
        obtain ⟨hfound, hbound⟩ := List.mem_filter.mp hfound
        cases place with
        | nil => cases hfound
        | cons t tail =>
          exact accept_between h hinner (not_spacing_of_skipSpace hplace)
            (fun t ht => hflat' t (List.mem_cons_of_mem _ ht)) hskip hfound
            (of_decide_eq_true hbound) haccept
      generalize firstAccepted engine engine.host inner (some lhs) stop place
        ((engine.dictionary.candidates place [.infixOp, .postfixOp]).filter
          fun candidate => stop.minPrec ≤ candidate.entry.precedence) = next at hnext ⊢
      obtain _ | ⟨e, after⟩ := next
      · exact hskip
      · exact ih (hnext e after rfl)

end

/-! ### Single operands -/

/-- A numeral takes digits and points. -/
theorem exists_numeral (start : List Token) :
    ∃ digits, start = digits ++ (numeral start).2 ∧
      ∀ t ∈ digits, t.isDigit = true ∨ t = .char '.' := by
  have hdigits : ∀ tokens : List Token, ∀ t ∈ tokens.takeWhile Token.isDigit,
      t.isDigit = true ∨ t = .char '.' := fun tokens t ht =>
    Or.inl (List.all_eq_true.mp List.all_takeWhile t ht)
  have hsplit : start.takeWhile Token.isDigit ++ start.dropWhile Token.isDigit = start :=
    List.takeWhile_append_dropWhile
  unfold numeral
  dsimp only
  split
  · rename_i more hmore
    split
    · refine ⟨start.takeWhile Token.isDigit ++ .char '.' :: more.takeWhile Token.isDigit, ?_, ?_⟩
      · rw [List.append_assoc, List.cons_append, List.takeWhile_append_dropWhile, ← hmore, hsplit]
      · intro t ht
        rcases List.mem_append.mp ht with ht | ht
        · exact hdigits start t ht
        rcases List.mem_cons.mp ht with rfl | ht
        · exact Or.inr rfl
        · exact hdigits more t ht
    · exact ⟨_, hsplit.symm, hdigits start⟩
  · exact ⟨_, hsplit.symm, hdigits start⟩

theorem not_isSpacing_of_digit {t : Token} (h : t.isDigit = true ∨ t = .char '.') :
    isSpacing t = false := by
  rcases h with h | rfl
  · cases t <;> first | rfl | cases h
  · rfl

/-- What no operator in front of an operand claims is a single operand, or nothing is read. -/
theorem unclaimed_reads (h : PlainOperators engine entries) {t : Token} {tail : List Token}
    (hspacing : isSpacing t = false) (hflat : ∀ t' ∈ t :: tail, t'.Flat) {e : Expr}
    {rest : List Token}
    (hread : unclaimed engine engine.host inner t (t :: tail) = pure (some (e, rest)))
    (bound : Nat) : PhraseRead engine entries bound (t :: tail) e rest := by
  obtain ⟨hgroup, hbegin, hleft⟩ := hflat t List.mem_cons_self
  have hsingle : ∀ e, SingleOperand entries [t] e →
      PhraseRead engine entries bound (t :: tail) e tail := fun e he =>
    ⟨.operand [t] e, Covers.token hspacing tail, rfl, he⟩
  have hother : atOperator engine.dictionary (t :: tail) = false → t.IsOperand entries :=
    fun hnone => Or.inr (h.not_standsAt hnone)
  unfold unclaimed at hread
  rw [if_neg (by simp [hbegin]), if_neg (by simp [hleft])] at hread
  cases t with
  | groupStart => exact absurd rfl hgroup
  | char c =>
    dsimp only at hread
    split at hread
    · obtain ⟨digits, htokens, hdigits⟩ := exists_numeral (.char c :: tail)
      cases hread
      refine ⟨.operand digits _, ⟨digits, htokens, ?_⟩, rfl, .number hdigits⟩
      exact List.filter_eq_self.mpr fun t ht => by simp [not_isSpacing_of_digit (hdigits t ht)]
    split at hread
    · rename_i hletter
      have hoperand : (Token.char c).IsOperand entries := Or.inl ⟨c, rfl, hletter⟩
      unfold letter at hread
      split at hread
      · simp only [errorAt_eq] at hread
        cases hread
        exact hsingle _ (.error hoperand)
      · cases hread
        exact hsingle _ (.symbol hoperand)
    split at hread
    · cases hread
    · rename_i hnone
      simp only [errorAt_eq] at hread
      cases hread
      exact hsingle _ (.error (hother (by simpa using hnone)))
  | command name =>
    dsimp only at hread
    split at hread
    · cases hread
    · rename_i hnone
      have hoperand := hother (by simpa using hnone)
      unfold unknownCommand at hread
      dsimp only at hread
      split at hread
      · cases hread
        exact hsingle _ (.symbol hoperand)
      · have hgroups : skipGroups tail = tail := by
          apply skipGroups_of_not
          intro hhead
          have hmem := List.mem_of_mem_head? hhead
          exact (hflat .groupStart (List.mem_cons_of_mem _ hmem)).1 rfl
        simp only [errorAt_eq, List.drop_one, List.tail_cons, hgroups] at hread
        cases hread
        exact hsingle _ (.error hoperand)
  | groupEnd =>
    dsimp only at hread
    split at hread
    · cases hread
    · rename_i hnone
      simp only [errorAt_eq] at hread
      cases hread
      exact hsingle _ (.error (hother (by simpa using hnone)))
  | space => cases hspacing

/-! ### Whole expressions -/

theorem Covers.phrase {start middle : List Token} (h : Covers start [] middle) {bound : Nat}
    {e : Expr} {rest : List Token} (hread : PhraseRead engine entries bound middle e rest) :
    PhraseRead engine entries bound start e rest := by
  obtain ⟨φ, hcovers, hφ⟩ := hread
  exact ⟨φ, h.trans hcovers, hφ⟩

theorem primary_reads (h : PlainOperators engine entries)
    (hinner : ∀ stop start, (∀ t ∈ start, t.Flat) →
      Reads engine entries stop.minPrec start (Id.run (inner stop start)))
    (stop : Terminator) {start : List Token} (hflat : ∀ t ∈ start, t.Flat) :
    Reads engine entries stop.minPrec start
      (Id.run (primary engine engine.host inner stop start)) := by
  have hgap := Covers.gap start
  have hflat' := hgap.flat hflat
  rw [primary]
  dsimp only
  generalize hplace : skipSpace start = place at hgap hflat' ⊢
  by_cases hend : atTerminator engine.dictionary stop place = true
  · rw [if_pos hend]
    exact hgap
  rw [if_neg hend]
  cases place with
  | nil => exact absurd rfl hend
  | cons t tail =>
    have hspacing := not_spacing_of_skipSpace hplace
    have haccepted : ∀ e after, firstAccepted engine engine.host inner none stop (t :: tail)
        (engine.dictionary.candidates (t :: tail) [.symbol, .prefixOp, .matchfix]) =
        pure (some (e, after)) → PhraseRead engine entries stop.minPrec start e after := by
      intro e after heq
      obtain ⟨found, hfound, haccept⟩ := exists_accepted heq
      exact hgap.phrase (accept_before h hinner hspacing
        (fun t ht => hflat' t (List.mem_cons_of_mem _ ht)) hfound haccept stop.minPrec)
    have hunclaimed : ∀ e after, unclaimed engine engine.host inner t (t :: tail) =
        pure (some (e, after)) → PhraseRead engine entries stop.minPrec start e after :=
      fun e after heq => hgap.phrase (unclaimed_reads h hspacing hflat' heq stop.minPrec)
    generalize firstAccepted engine engine.host inner none stop (t :: tail)
      (engine.dictionary.candidates (t :: tail) [.symbol, .prefixOp, .matchfix]) = accepted
      at haccepted ⊢
    obtain _ | ⟨e, after⟩ := accepted
    · dsimp only [pure_bind]
      generalize unclaimed engine engine.host inner t (t :: tail) = claimed at hunclaimed ⊢
      obtain _ | ⟨e, after⟩ := claimed
      · exact hgap
      · exact hunclaimed e after rfl
    · exact haccepted e after rfl

theorem expressionWithin_reads (h : PlainOperators engine entries) (fuel : Nat)
    (stop : Terminator) {start : List Token} (hflat : ∀ t ∈ start, t.Flat) :
    Reads engine entries stop.minPrec start
      (Id.run (expressionWithin engine engine.host fuel stop start)) := by
  induction fuel generalizing stop start with
  | zero => exact Covers.refl start
  | succ fuel ih =>
    have hinner : ∀ stop start, (∀ t ∈ start, t.Flat) → Reads engine entries stop.minPrec start
        (Id.run (expressionWithin engine engine.host fuel stop start)) :=
      fun stop start hflat => ih stop hflat
    have hread := primary_reads h hinner stop hflat
    rw [expressionWithin]
    generalize primary engine engine.host (expressionWithin engine engine.host fuel) stop start =
      result at hread ⊢
    obtain ⟨_ | lhs, rest⟩ := result
    · exact hread
    · exact operators_reads h hinner hflat (rest.length + 1) hread

end Reader

open Reader OperatorPhrase

/-- **How far a bound reaches.**  An expression that is read with a bound is a phrase over exactly
    the tokens taken.  An operator between operands has a precedence of at least the bound if no
    operator before its operand stands around it, and else a higher precedence than the last of
    those.  So the bound holds for all operators if no operator before its operand asks for less. -/
theorem PlainOperators.expression_bound {engine : Engine Unit} {entries : List (Entry Unit)}
    (h : PlainOperators engine entries) (stop : Terminator) {start : List Token}
    (hflat : ∀ t ∈ start, t.Flat) :
    (∃ rest, expression engine engine.host stop start = pure (none, rest) ∧
      Covers start [] rest) ∨
    ∃ (φ : OperatorPhrase) (rest : List Token),
      expression engine engine.host stop start = pure (some (φ.value engine), rest) ∧
      Covers start φ.tokens rest ∧ φ.Climbs engine entries stop.minPrec ∧
      (∀ o, (none, o) ∈ φ.infixes none → stop.minPrec ≤ o.precedence) ∧
      (∀ p o, (some p, o) ∈ φ.infixes none → p.precedence < o.precedence) ∧
      ((∀ p ∈ entries, p.kind = .prefixOp → stop.minPrec ≤ p.precedence + 1) →
        ∀ x ∈ φ.infixes none, stop.minPrec ≤ x.2.precedence) := by
  have hread := expressionWithin_reads h (start.length + 1) stop hflat
  have hexpression : expression engine engine.host stop start =
      expressionWithin engine engine.host (start.length + 1) stop start := rfl
  rw [hexpression]
  generalize expressionWithin engine engine.host (start.length + 1) stop start = result at hread ⊢
  obtain ⟨_ | e, rest⟩ := result
  · exact Or.inl ⟨rest, rfl, hread⟩
  · obtain ⟨φ, hcovers, rfl, hclimbs⟩ := hread
    have hlower : ∀ x ∈ φ.infixes none, lowerBound stop.minPrec x.1 ≤ x.2.precedence :=
      hclimbs.lowerBound_le h.bounded (Nat.le_refl _)
    refine Or.inr ⟨φ, rest, rfl, hcovers, hclimbs, fun o ho => hlower _ ho,
      fun p o ho => hlower _ ho, ?_⟩
    intro hprefixes x hx
    cases hx' : x.1 with
    | none => simpa [hx', lowerBound] using hlower x hx
    | some p =>
      obtain ⟨hp, hkind⟩ := hclimbs.mem_of_around (by simp) x hx p hx'
      have hasks := hprefixes p hp hkind
      have htight := hlower x hx
      simp only [hx', lowerBound] at htight
      omega

/-! ### Quotients and negated products -/

def slash : Entry Unit := .infixOp "Divide" "/" 660

def star : Entry Unit := .infixOp "Multiply" "*" 390

def dash : Entry Unit := .prefixOp "Negate" "-" 275

/-- The engine for quotients, products and negation, with the precedences of the standard one. -/
def Engine.quotients : Engine Unit :=
  match Dictionary.ofEntries [slash, star, dash] with
  | .ok d => .ofDictionary d {}
  | .error _ => .ofDictionary .empty {}

theorem plainOperators_quotients : PlainOperators Engine.quotients [slash, star, dash] where
  accepted := by
    have hdefects : [slash, star, dash].all (fun entry => entry.defect?.isNone) = true := by
      decide +kernel
    obtain ⟨d, hd⟩ := Dictionary.exists_ofEntries_of_all hdefects
    rw [Engine.quotients, hd]
    rfl
  rule := by simp [slash, star, dash, Entry.infixOp, Entry.prefixOp, Entry.named, Entry.isCustom]
  bounded := by decide
  kind := by simp [slash, star, dash, Entry.infixOp, Entry.prefixOp, Entry.named]
  single := by
    have hslash : (Trigger.ofLatex "/").tokens = [.char '/'] := by decide +kernel
    have hstar : (Trigger.ofLatex "*").tokens = [.char '*'] := by decide +kernel
    have hdash : (Trigger.ofLatex "-").tokens = [.char '-'] := by decide +kernel
    simp [slash, star, dash, Entry.infixOp, Entry.prefixOp, Entry.named, hslash, hstar, hdash]

theorem flat_negated_product : ∀ t ∈ tokenize "-b*c", t.Flat := by
  have htokens : tokenize "-b*c" = [.char '-', .char 'b', .char '*', .char 'c'] := by
    decide +kernel
  simp [htokens, Token.Flat, Token.isCommand]

/-- The operators in a negation bind more tightly than its sign, whatever the bound. -/
theorem expression_bound_quotients :
    PlainOperators Engine.quotients [slash, star, dash] ∧ (∀ t ∈ tokenize "-b*c", t.Flat) ∧
    ∃ (φ : OperatorPhrase) (rest : List Token),
      expression Engine.quotients Engine.quotients.host { minPrec := 661 } (tokenize "-b*c") =
        pure (some (φ.value Engine.quotients), rest) ∧
      ∀ p o, (some p, o) ∈ φ.infixes none → p.precedence < o.precedence := by
  refine ⟨plainOperators_quotients, flat_negated_product, ?_⟩
  rcases plainOperators_quotients.expression_bound { minPrec := 661 } flat_negated_product with
    ⟨rest, hnone, -⟩ | ⟨φ, rest, hread, -, -, -, hinside, -⟩
  · have hsome : (Id.run (expression Engine.quotients Engine.quotients.host { minPrec := 661 }
        (tokenize "-b*c"))).1.isSome = true := by
      decide +kernel
    rw [hnone] at hsome
    cases hsome
  · exact ⟨φ, rest, hread, hinside⟩

/-- Behind a quotient the bound is 661.  The sign after it reads the product all the same, an
    operator of precedence 390. -/
theorem expression_passes_bound :
    PlainOperators Engine.quotients [slash, star, dash] ∧
    ([slash, star, dash].flatMap fun o => o.triggers.map Trigger.tokens).Nodup ∧
    (∀ t ∈ tokenize "-b*c", t.Flat) ∧
    star.StandsAt [slash, star, dash] .infixOp (.char '*') ∧ star.precedence < 661 ∧
    (let result := Id.run (expression Engine.quotients Engine.quotients.host { minPrec := 661 }
      (tokenize "-b*c"))
    result.1.any (· == .call () "Negate" [.call () "Multiply" [.symbol "b", .symbol "c"]]) = true ∧
      result.2 = []) ∧
    (Engine.standard.parse "a/-b*c" == .call () "Divide" [.symbol "a",
      .call () "Negate" [.call () "Multiply" [.symbol "b", .symbol "c"]]]) = true := by
  refine ⟨plainOperators_quotients, by decide +kernel, flat_negated_product, ?_, by decide,
    by decide +kernel, by decide +kernel⟩
  exact ⟨by simp, rfl, .ofLatex "*", List.mem_singleton_self _, by decide +kernel⟩

end Formula
