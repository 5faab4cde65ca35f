import Formula.Proofs.Dictionary.Lengths
import Formula.Proofs.Reader.Climb
import Formula.Proofs.Sources
import Formula.Proofs.Standard.Scripts

/-!
  **Formulas that correspond.**

  Many properties of the reader compare two formulas: with more blanks in one of them, with a sign
  written out, with another name for a notation, with something behind the end.  Both are read side
  by side, and a place in the one keeps corresponding to a place in the other.

  A `Correspondence` says which expressions count as the same and which places correspond.  How
  places correspond may depend on two things that the reader knows: how many braces are open around
  the place, and with which bound on operators the expression was read that ends there.  Bound zero
  means that an expression may start at the place.  `Lockstep` collects what has to be shown of a
  correspondence: how it fares with the next token, and what the few functions that look at tokens
  do with it.  All else that the reader does follows from that.
-/

namespace Formula

/-- The two notations are read in the same way. -/
structure Entry.Twin (entry entry' : Entry Unit) : Prop where
  rule : entry'.parse = entry.parse ∨ entry.isCustom = false ∧ entry'.isCustom = false
  kind : entry'.kind = entry.kind
  head : entry'.head? = entry.head?
  precedence : entry'.precedence = entry.precedence
  associativity : entry'.associativity = entry.associativity
  close : entry.kind = .matchfix → entry'.close = entry.close

theorem Entry.Twin.refl (entry : Entry Unit) : Twin entry entry :=
  ⟨.inl rfl, rfl, rfl, rfl, rfl, fun _ => rfl⟩

namespace Reader

/-! ### Programs that agree -/

/-- The results of two programs are related. -/
def Agrees {β : Type} (R : β → β → Prop) (x y : Id β) : Prop := R (Id.run x) (Id.run y)

namespace Agrees

variable {β γ : Type} {x y : Id β} {R : β → β → Prop}

theorem pure {b c : β} (h : R b c) : Agrees R (pure b) (pure c) := h

theorem bind {f g : β → Id γ} {T : γ → γ → Prop} (hxy : Agrees R x y)
    (hfg : ∀ b c, R b c → Agrees T (f b) (g c)) : Agrees T (x >>= f) (y >>= g) :=
  hfg _ _ hxy

theorem map {f : β → γ} {T : γ → γ → Prop} (hxy : Agrees R x y)
    (hf : ∀ b c, R b c → T (f b) (f c)) :
    Agrees T (Pure.pure (f (Id.run x))) (Pure.pure (f (Id.run y))) :=
  hf _ _ hxy

theorem mono {T : β → β → Prop} (hxy : Agrees R x y) (h : ∀ b c, R b c → T b c) : Agrees T x y :=
  h _ _ hxy

/-- What is known of each result for itself may be used as well. -/
theorem with_each {P Q : β → Prop} (hxy : Agrees R x y) (hx : P (Id.run x)) (hy : Q (Id.run y)) :
    Agrees (fun b c => R b c ∧ P b ∧ Q c) x y := ⟨hxy, hx, hy⟩

theorem with_left {P : β → Prop} (hxy : Agrees R x y) (hx : P (Id.run x)) :
    Agrees (fun b c => R b c ∧ P b) x y := ⟨hxy, hx⟩

end Agrees

/-- What comes after an expression: an operator that binds tightly enough, or a factor without an
    operator in front. -/
def following (engine : Engine Unit) (stop : Terminator) (lhs : Expr) (rest : List Token) :
    Id (Option (Expr × List Token)) :=
  let found := engine.dictionary.candidates rest [.infixOp, .postfixOp]
  if found.isEmpty then
    juxtaposed engine engine.host (expression engine engine.host) lhs stop rest
  else
    firstAccepted engine engine.host (expression engine engine.host) (some lhs) stop rest
      (found.filter fun candidate => stop.minPrec ≤ candidate.entry.precedence)

/-! ### Tokens that a notation claims -/

/-- The token is a command that neither opens nor closes anything. -/
structure Plain (engine : Engine Unit) (t : Token) : Prop where
  command : ∃ name, t = .command name ∧ name ∉ ["\\begin", "\\end", "\\left", "\\right"]
  closer : engine.dictionary.isCloser t = false

/-- What stands here is an operator behind its operand, or it is read by the rule of a symbol or of
    an operator in front of its operand. -/
def Claimed (engine : Engine Unit) (s : List Token) : Prop :=
  atOperator engine.dictionary s = true ∨
    ∃ found others, engine.dictionary.candidates s [.symbol, .prefixOp, .matchfix] =
        found :: others ∧ found.entry.isCustom = false ∧ found.entry.head?.isSome = true ∧
      (found.entry.kind = .symbol ∨ found.entry.kind = .prefixOp)

/-- The next tokens are the same, or both are commands whose notations say how to read them. -/
def SameStart (engine : Engine Unit) (t t' : Token) (v v' : List Token) : Prop :=
  t' = t ∨ (Plain engine t ∧ Claimed engine (t :: v)) ∧ Plain engine t' ∧ Claimed engine (t' :: v')

/-! ### Correspondences -/

/-- A way in which two formulas are the same. -/
structure Correspondence where
  /-- The expressions count as the same. -/
  Like : Expr → Expr → Prop
  /-- The places correspond, with at least `depth` braces open around them, behind an expression
      that was read with the bound on operators. -/
  Aligned : (depth bound : Nat) → List Token → List Token → Prop
  /-- What stands in front of expressions, between them and behind them in both formulas. -/
  Admits : List Token → Prop
  /-- What a script may see as the next token in the two formulas. -/
  Seen : Option Token → Option Token → Prop

namespace Correspondence

variable (C : Correspondence)

/-- Places that correspond, with no blank in front of either. -/
structure Flush (depth bound : Nat) (s s' : List Token) : Prop where
  aligned : C.Aligned depth bound s s'
  left : skipSpace s = s
  right : skipSpace s' = s'

/-- Places that correspond behind some expression. -/
def Behind (depth : Nat) (s s' : List Token) : Prop := ∃ bound, C.Aligned depth bound s s'

/-- Behind an expression that was read with the bound an expression may start. -/
def Loose (bound : Nat) : Prop :=
  ∀ depth s s', C.Aligned depth bound s s' → C.Aligned depth 0 s s'

/-- What closes an expression stands in both formulas. -/
def Stops (stop : Terminator) : Prop := ∀ close, stop.close = some close → C.Admits close

/-- Matches of notations that are read in the same way, with an expression to start behind. -/
structure SameMatch (depth : Nat) (found found' : TriggerMatch Unit) : Prop where
  twin : Entry.Twin found.entry found'.entry
  after : C.Aligned depth 0 found.after found'.after

/-- The two formulas end together. -/
structure Whole : Prop where
  level : ∀ {depth bound s s'}, C.Aligned 0 bound s s' → C.Aligned depth bound s s'
  isEmpty : ∀ {depth s s'}, C.Flush depth 0 s s' → s.isEmpty = s'.isEmpty

/-- Blocks correspond to blocks of the same name. -/
structure Blocks : Prop where
  loose : ∀ bound, C.Loose bound
  name : ∀ {depth bound t v v'}, C.Aligned depth bound (t :: v) (t :: v') →
    t.isCommand "\\begin" = true →
    (groupText v).1 = (groupText v').1 ∧ C.Aligned depth 0 (groupText v).2 (groupText v').2
  skip : ∀ {depth s s'}, C.Aligned depth 0 s s' →
    C.Aligned depth 0 (skipEnvironment 1 s) (skipEnvironment 1 s')
  close : ∀ {depth s s'} (name : String), C.Flush depth 0 s s' →
    Option.Rel (C.Aligned depth 0) (environmentEnd? name s) (environmentEnd? name s')

/-- Expressions that count as the same are built and looked at in the same way. -/
structure Likeness (engine : Engine Unit) : Prop where
  refl : ∀ e, C.Like e e
  hasHead : ∀ {a b}, C.Like a b → ∀ name, a.hasHead name = b.hasHead name
  ops : ∀ {a b}, C.Like a b → ∀ name, name ≠ "Error" → a.hasHead name = true →
    List.Forall₂ C.Like a.ops b.ops
  domain : ∀ {a b}, C.Like a b → engine.domain a = engine.domain b
  call : ∀ head {xs ys}, List.Forall₂ C.Like xs ys →
    C.Like (engine.call head xs) (engine.call head ys)

variable {C} in
/-- Expressions that differ in the sources of errors only may count as the same. -/
theorem likeness_alike (hlike : C.Like = Tree.Alike) (engine : Engine Unit) :
    C.Likeness engine where
  refl e := by
    rw [hlike]
    exact .refl e
  hasHead h name := by
    rw [hlike] at h
    exact h.hasHead_eq name
  ops h name hname hhead := by
    rw [hlike] at h ⊢
    exact h.ops_of_hasHead hname hhead
  domain h := by
    rw [hlike] at h
    exact h.domain_eq engine
  call head xs ys h := by
    rw [hlike] at h ⊢
    exact Tree.Alike.engine_call engine head h

/-! ### Scripts -/

/-- The two scripts make the same requests, and go on alike from answers that are the same.  They
    stand behind an expression that was read with the bound, so not all may be asked for there. -/
inductive SameScript : (bound : Nat) → Script Unit → Script Unit → Prop where
  | done {bound : Nat} {result result' : Option Expr} (h : Option.Rel C.Like result result') :
      SameScript bound (.done result) (.done result')
  | expression {bound : Nat} (loose : C.Loose bound) {stop : Terminator} (hstop : C.Stops stop)
      {next next' : Option Expr → Script Unit}
      (h : ∀ e e', Option.Rel C.Like e e' → SameScript stop.minPrec (next e) (next' e')) :
      SameScript bound (.expression stop next) (.expression stop next')
  | tabular {bound : Nat} (loose : C.Loose bound) {next next' : Expr → Script Unit}
      (h : ∀ e e', C.Like e e' → SameScript 0 (next e) (next' e')) :
      SameScript bound (.tabular next) (.tabular next')
  | root {bound : Nat} (loose : C.Loose bound) (whole : C.Whole) {next next' : Expr → Script Unit}
      (h : ∀ e e', C.Like e e' → SameScript 0 (next e) (next' e')) :
      SameScript bound (.root next) (.root next')
  | skipSpace {bound : Nat} {next next' : Script Unit} (h : SameScript bound next next') :
      SameScript bound (.skipSpace next) (.skipSpace next')
  | peek {bound : Nat} (loose : C.Loose bound) {next next' : Option Token → Script Unit}
      (h : ∀ t t', C.Seen t t' → SameScript 0 (next t) (next' t')) :
      SameScript bound (.peek next) (.peek next')
  | checkpoint {bound : Nat} (loose : C.Loose bound) {next next' : Script Unit}
      (h : SameScript 0 next next') : SameScript bound (.checkpoint next) (.checkpoint next')
  | rewind {bound : Nat} (loose : C.Loose bound) (place : Nat) {next next' : Script Unit}
      (h : SameScript 0 next next') : SameScript bound (.rewind place next) (.rewind place next')
  | build {bound : Nat} (head : String) {ops ops' : List Expr} (hops : List.Forall₂ C.Like ops ops')
      {next next' : Expr → Script Unit}
      (h : ∀ e e', C.Like e e' → SameScript bound (next e) (next' e')) :
      SameScript bound (.build head ops next) (.build head ops' next')
  | domain {bound : Nat} {e e' : Expr} (he : C.Like e e') {next next' : Literal → Script Unit}
      (h : ∀ answer, SameScript bound (next answer) (next' answer)) :
      SameScript bound (.domain e next) (.domain e' next')
  | compatible {bound : Nat} {e e' : Expr} (he : C.Like e e') (l : Literal)
      {next next' : Bool → Script Unit}
      (h : ∀ answer, SameScript bound (next answer) (next' answer)) :
      SameScript bound (.compatible e l next) (.compatible e' l next')

/-- The script of a custom notation does the same in both formulas. -/
def SameHandler (handler : Handler Unit) : Prop :=
  ∀ lhs lhs' stop, Option.Rel C.Like lhs lhs' → C.Stops stop →
    C.SameScript 0 (handler lhs stop) (handler lhs' stop)

variable {C} {engine : Engine Unit}

theorem loose_zero : C.Loose 0 := fun _ _ _ h => h

theorem stops_default : C.Stops {} := by
  intro close hclose
  cases hclose

theorem Stops.withMinPrec {stop : Terminator} (h : C.Stops stop) (minPrec : Nat) :
    C.Stops (stop.withMinPrec minPrec) := h

open Standard in
/-- The standard scripts ask for at most one expression, and look at the heads and the domains of
    expressions only. -/
theorem sameHandler_standard (like : C.Likeness engine) {handler : Handler Unit}
    (hscript : handler ∈ scripts) : C.SameHandler handler := by
  intro lhs lhs' stop hlhs hstop
  have hreject : ∀ {bound}, C.SameScript bound (.done none) (.done none) := .done .none
  have hfinish : ∀ {bound} (head : String) {ops ops' : List Expr}, List.Forall₂ C.Like ops ops' →
      C.SameScript bound (finish head ops) (finish head ops') := by
    intro bound head ops ops' hops
    exact .build head hops fun e e' he => .done (.some he)
  simp only [scripts, List.mem_cons, List.not_mem_nil, or_false] at hscript
  cases hlhs with
  | none => rcases hscript with rfl | rfl | rfl | rfl <;> exact hreject
  | @some lhs lhs' hlhs =>
    rcases hscript with rfl | rfl | rfl | rfl
    · refine .compatible hlhs _ fun isSet => ?_
      cases isSet with
      | false => exact hreject
      | true =>
        refine .expression loose_zero (hstop.withMinPrec _) fun rhs rhs' hrhs => ?_
        cases hrhs with
        | none => exact hreject
        | some hrhs =>
          refine .compatible hrhs _ fun isSet => ?_
          cases isSet with
          | false => exact hreject
          | true => exact hfinish _ (.cons hlhs (.cons hrhs .nil))
    · refine .expression loose_zero (hstop.withMinPrec _) fun rhs rhs' hrhs => ?_
      cases hrhs with
      | none => exact hreject
      | some hrhs =>
        refine .build _ (.cons hrhs .nil) fun condition condition' hcondition => ?_
        exact hfinish _ (.cons hlhs (.cons hcondition .nil))
    · refine .expression loose_zero (hstop.withMinPrec _) fun rhs rhs' hrhs => ?_
      cases hrhs with
      | none => exact hreject
      | some hrhs => exact hfinish _ (.cons hrhs (.cons hlhs .nil))
    · refine .expression loose_zero (hstop.withMinPrec _) fun next next' hnext => ?_
      apply hfinish
      apply List.rel_append
      · -- the elements of a sequence on the left, or what stands there itself
        have hhead := like.hasHead hlhs "Sequence"
        split
        · rename_i hsequence
          rw [if_pos (hhead ▸ hsequence)]
          exact like.ops hlhs _ (by decide) hsequence
        · rename_i hsequence
          rw [if_neg (hhead ▸ hsequence)]
          exact .cons hlhs .nil
      · cases hnext with
        | none => exact .nil
        | some hnext => exact .cons hnext .nil

/-! ### Results that agree -/

variable (C)

/-- The expressions count as the same and the places correspond. -/
def SameRead (depth : Nat) (x y : Expr × List Token) : Prop :=
  C.Like x.1 y.1 ∧ C.Behind depth x.2 y.2

/-- The same expressions, or none in both formulas, and places that correspond. -/
def SameResult (depth : Nat) (x y : Option Expr × List Token) : Prop :=
  Option.Rel C.Like x.1 y.1 ∧ C.Behind depth x.2 y.2

/-- The same expressions, read with the bound; where there is none one may still start. -/
def SameOutcome (depth bound : Nat) (x y : Option Expr × List Token) : Prop :=
  Option.Rel C.Like x.1 y.1 ∧ C.Aligned depth bound x.2 y.2 ∧
    (x.1 = none → C.Flush depth 0 x.2 y.2)

/-- The same expressions in a row, at a place without a blank in front. -/
def SameList (depth : Nat) (x y : List Expr × List Token) : Prop :=
  List.Forall₂ C.Like x.1 y.1 ∧ C.Flush depth 0 x.2 y.2

/-- Nothing is read in either formula, or the same expressions up to places that correspond. -/
abbrev SameFound (depth : Nat) (x y : Option (Expr × List Token)) : Prop :=
  Option.Rel (C.SameRead depth) x y

/-- Expressions at corresponding places, with fewer than `limit` tokens left, are read as the same
    expressions. -/
def NestedAgree (engine : Engine Unit) (limit : Nat) : Prop :=
  ∀ depth stop s s', C.Stops stop → C.Aligned depth 0 s s' → s.length < limit →
    Agrees (C.SameOutcome depth stop.minPrec) (expression engine engine.host stop s)
      (expression engine engine.host stop s')

/-! ### What has to be shown -/

/-- What has to be shown of a correspondence.  Where the next token is an end of a group or of
    something else it is not passed by an expression, so less has to be shown of it. -/
structure Lockstep (C : Correspondence) (engine : Engine Unit) : Prop where
  like : C.Likeness engine
  error : ∀ {depth bound depth' bound' s s' rest rest'}, C.Aligned depth bound s s' →
    C.Aligned depth' bound' rest rest' → ∀ code argument,
    C.Like (Tree.errorCall code argument (some (Latex.ofTokens (between s rest))))
      (Tree.errorCall code argument (some (Latex.ofTokens (between s' rest'))))
  script : ∀ entry ∈ engine.dictionary.entries, ∀ handler, entry.parse = .custom handler →
    C.SameHandler handler
  -- places
  tight : ∀ {depth s s'}, C.Aligned depth 0 s s' → ∀ bound, C.Aligned depth bound s s'
  outward : ∀ {depth bound s s'}, C.Aligned (depth + 1) bound s s' → C.Aligned depth bound s s'
  seen : ∀ {depth s s'}, C.Aligned depth 0 s s' → C.Seen s.head? s'.head?
  skipSpace : ∀ {depth bound s s'}, C.Aligned depth bound s s' →
    C.Aligned depth bound (skipSpace s) (skipSpace s')
  -- where expressions end
  terminator : ∀ {depth bound stop s s'}, C.Stops stop → C.Flush depth bound s s' →
    atTerminator engine.dictionary stop s = atTerminator engine.dictionary stop s'
  halted : ∀ {depth bound stop s s'}, C.Stops stop → C.Flush depth bound s s' →
    atTerminator engine.dictionary stop s = true → C.Aligned depth 0 s s'
  -- what stands between expressions
  pattern : ∀ {depth p s s'}, C.Admits p → C.Flush depth 0 s s' →
    Option.Rel (C.Aligned depth 0) (matchTokens p s) (matchTokens p s')
  cell : C.Admits [.char '&']
  row : C.Admits [.command "\\\\"]
  close : ∀ entry ∈ engine.dictionary.entries, entry.kind = .matchfix →
    C.Admits ((entry.close.map Trigger.tokens).getD [])
  groupEnd : ∀ {depth s s'}, C.Flush (depth + 1) 0 s s' →
    Option.Rel (C.Aligned depth 0) (matchTokens [.groupEnd] s) (matchTokens [.groupEnd] s')
  -- what an expression starts with
  start : ∀ {depth t v s'}, C.Flush depth 0 (t :: v) s' →
    ∃ t' v', s' = t' :: v' ∧ SameStart engine t t' v v'
  candidates : ∀ {depth t v s'} (kinds : List Kind), C.Flush depth 0 (t :: v) s' →
    List.Forall₂ (C.SameMatch depth) (engine.dictionary.candidates (t :: v) kinds)
      (engine.dictionary.candidates s' kinds)
  next : ∀ {depth t v v'}, C.Flush depth 0 (t :: v) (t :: v') → isBoundary t = false →
    C.Behind depth v v'
  group : ∀ {depth v v'}, C.Flush depth 0 (.groupStart :: v) (.groupStart :: v') →
    C.Aligned (depth + 1) 0 v v'
  numeral : ∀ {depth t v v'}, C.Flush depth 0 (t :: v) (t :: v') → t.isDigit = true →
    (numeral (t :: v)).1 = (numeral (t :: v')).1 ∧
      C.Behind depth (numeral (t :: v)).2 (numeral (t :: v')).2
  arguments : ∀ {depth name v v'}, C.Flush depth 0 (.command name :: v) (.command name :: v') →
    nextIs (· == .groupStart) v = nextIs (· == .groupStart) v' ∧
      C.Behind depth (skipGroups v) (skipGroups v')
  left : ∀ {depth t v v'}, C.Flush depth 0 (t :: v) (t :: v') → t.isCommand "\\left" = true →
    C.Behind depth (skipDelimiter v) (skipDelimiter v') ∧
      C.Behind depth (skipLeft 1 (skipDelimiter v)) (skipLeft 1 (skipDelimiter v'))
  blocks : ∀ {depth t v v'}, C.Flush depth 0 (t :: v) (t :: v') → t.isCommand "\\begin" = true →
    C.Blocks
  -- what is left over
  right : ∀ {t v v'}, C.Flush 0 0 (t :: v) (t :: v') → t.isCommand "\\right" = true →
    C.Aligned 0 0 (skipDelimiter v) (skipDelimiter v')
  ends : ∀ {t v v'}, C.Flush 0 0 (t :: v) (t :: v') → t.isCommand "\\end" = true →
    C.Aligned 0 0 (groupText v).2 (groupText v').2
  drop : ∀ {t t' v v'}, C.Flush 0 0 (t :: v) (t' :: v') →
    expression engine engine.host {} (t :: v) = pure (none, t :: v) → C.Aligned 0 0 v v'
  /-- Where no expression may start what comes next is the same all the same, or an expression that
      was read with the bound ends. -/
  pending : ∀ {limit depth bound stop s s'} {lhs lhs' : Expr}, C.NestedAgree engine limit →
    C.Stops stop → C.Flush depth bound s s' → atTerminator engine.dictionary stop s = false →
    ¬ C.Aligned depth 0 s s' → s.length < limit → C.Like lhs lhs' →
    Agrees (fun x y => C.SameFound depth x y ∧ (x = none → C.Aligned depth stop.minPrec s s'))
      (following engine stop lhs s) (following engine stop lhs' s')

end Correspondence

end Reader

end Formula
