import Formula.Proofs.Reader.Parts

/-!
  **Operators at work.**

  A `Phrase` is a way to read tokens: leaves, operators before and between operands, and pairs of
  triggers around a phrase.  It has tokens and a value.  That it is `Grouped` says that no operator
  could take an operand away from another: what stands to the right of an operator binds at least
  as tightly as the operator asks, and every operator that reads to the right in its left operand
  binds more tightly than itself.  Both are conditions on the edges of the operands: on the
  precedences of the operators between operands on the left edge, and on the bounds with which the
  reader comes to the end of the right edge.

  The reader gives a grouped phrase its value, whatever stands around it.  The induction is on the
  phrase; what carries it is that reading a phrase is the same as having read it and going on with
  the operators after it, so that an operator finds its whole left operand already read.
-/

namespace Formula

namespace Reader

variable {engine : Engine Unit}

/-- No numeral goes on here. -/
def Apart (rest : List Token) : Prop :=
  ∀ t, rest.head? = some t → t.isDigit = false ∧ t ≠ .char '.'

/-- The tokens are read as one primary expression. -/
def Primary (engine : Engine Unit) (tokens : List Token) (value : Expr) : Prop :=
  ∀ stop rest, Proper engine stop → Apart rest →
    primary engine engine.host (expression engine engine.host) stop (tokens ++ rest) =
      pure (some value, rest)

/-- The tokens end every expression in front of them. -/
structure Closes (engine : Engine Unit) (close : List Token) : Prop where
  closer : ∃ c cs, close = c :: cs ∧ engine.dictionary.isCloser c = true ∧ isSpacing c = false ∧
    c.isDigit = false ∧ c ≠ .char '.'

/-- The entry is the only one of its kinds whose trigger stands here. -/
structure Only (engine : Engine Unit) (kinds : List Kind) (entry : Entry Unit) (trigger : Trigger)
    (rest : List Token) : Prop where
  opens : ∃ t tail, trigger.tokens = t :: tail ∧ Opens engine t ∧ t.isDigit = false ∧
    t ≠ .char '.'
  found : ∃ consumed, engine.dictionary.candidates (trigger.tokens ++ rest) kinds =
    [⟨entry, consumed, rest⟩]

end Reader

open Reader

/-- The head of the calls that an entry stands for. -/
def Entry.headName {α : Type} (entry : Entry α) : String := entry.head?.getD ""

/-- The entry is read by the rule of the kind. -/
structure Entry.Ruled (entry : Entry Unit) (kind : Kind) : Prop where
  kind_eq : entry.kind = kind
  rule : entry.isCustom = false
  head_eq : entry.head? = some entry.headName

theorem Entry.ruled_of_byKind {entry : Entry Unit} {kind : Kind} (hkind : entry.kind = kind)
    (hparse : entry.parse = .byKind) {name : String} (hname : entry.name = some name) :
    entry.Ruled kind ∧ entry.headName = name := by
  have hhead : entry.head? = some name := by rw [Entry.head?, hparse, hname]
  have hheadName : entry.headName = name := by
    rw [Entry.headName, hhead]
    rfl
  exact ⟨⟨hkind, by rw [Entry.isCustom, hparse], by rw [hhead, hheadName]⟩, hheadName⟩

/-- The bound on the right side of an operator, in numbers that do not begin again. -/
def Entry.sideBound (entry : Entry Unit) : Nat :=
  match entry.associativity with
  | .right => entry.precedence
  | _ => entry.precedence + 1

theorem Reader.rightBound_eq {entry : Entry Unit} (h : entry.precedence ≤ 65534) :
    rightBound entry = entry.sideBound := by
  unfold rightBound Entry.sideBound
  cases entry.associativity with
  | right => rfl
  | left => exact boundAbove_of_le h
  | nonAssociative => exact boundAbove_of_le h

namespace Entry

theorem precedence_le_sideBound (entry : Entry Unit) : entry.precedence ≤ entry.sideBound := by
  unfold sideBound
  split
  · exact Nat.le_refl _
  · exact Nat.le_succ _

theorem sideBound_le (entry : Entry Unit) : entry.sideBound ≤ entry.precedence + 1 := by
  unfold sideBound
  split
  · exact Nat.le_succ _
  · exact Nat.le_refl _

theorem precedence_lt_sideBound {entry : Entry Unit} (h : entry.associativity ≠ .right) :
    entry.precedence < entry.sideBound := by
  unfold sideBound
  split
  · exact absurd ‹_› h
  · exact Nat.lt_succ_self _

end Entry

theorem Reader.precedence_le_rightBound {entry : Entry Unit} (h : entry.precedence ≤ 65534) :
    entry.precedence ≤ rightBound entry := by
  rw [rightBound_eq h]
  exact entry.precedence_le_sideBound

/-- A way to read tokens. -/
inductive Phrase where
  | leaf (tokens : List Token) (value : Expr)
  /-- A blank in front of a phrase. -/
  | spaced (body : Phrase)
  | around (entry : Entry Unit) (trigger close : Trigger) (body : Phrase)
  | before (entry : Entry Unit) (trigger : Trigger) (operand : Phrase)
  | between (entry : Entry Unit) (trigger : Trigger) (lhs rhs : Phrase)

namespace Phrase

def tokens : Phrase → List Token
  | leaf tokens _ => tokens
  | spaced body => .space :: body.tokens
  | around _ trigger close body => trigger.tokens ++ body.tokens ++ close.tokens
  | before _ trigger operand => trigger.tokens ++ operand.tokens
  | between _ trigger lhs rhs => lhs.tokens ++ trigger.tokens ++ rhs.tokens

/-- What the phrase is read as. -/
def value (engine : Engine Unit) : Phrase → Expr
  | leaf _ value => value
  | spaced body => body.value engine
  | around entry _ _ body =>
    engine.call entry.headName (contents entry.headName (body.value engine))
  | before entry _ operand => engine.call entry.headName [operand.value engine]
  | between entry _ lhs rhs => engine.call entry.headName [lhs.value engine, rhs.value engine]

/-- The precedences of the operators between operands on the left edge. -/
def leftEdge : Phrase → List Nat
  | spaced body => body.leftEdge
  | between entry _ lhs _ => entry.precedence :: lhs.leftEdge
  | _ => []

/-- The bounds of the expressions that are still being read at the end. -/
def rightEdge : Phrase → List Nat
  | spaced body => body.rightEdge
  | before entry _ operand => boundAbove entry.precedence :: operand.rightEdge
  | between entry _ _ rhs => rightBound entry :: rhs.rightEdge
  | _ => []

/-- Every trigger is understood, and no operator takes an operand away from another. -/
def Grouped (engine : Engine Unit) : Phrase → Prop
  | leaf tokens value => Primary engine tokens value
  | spaced body => body.Grouped engine
  | around entry trigger close body =>
    entry.Ruled .matchfix ∧ entry.close = some close ∧ Closes engine close.tokens ∧
      (∀ rest, Only engine [.symbol, .prefixOp, .matchfix] entry trigger (body.tokens ++ rest)) ∧
      body.Grouped engine
  | before entry trigger operand =>
    entry.Ruled .prefixOp ∧
      (∀ rest,
        Only engine [.symbol, .prefixOp, .matchfix] entry trigger (operand.tokens ++ rest)) ∧
      operand.Grouped engine ∧ ∀ p ∈ operand.leftEdge, boundAbove entry.precedence ≤ p
  | between entry trigger lhs rhs =>
    entry.Ruled .infixOp ∧
      (∀ rest, Only engine [.infixOp, .postfixOp] entry trigger (rhs.tokens ++ rest)) ∧
      lhs.Grouped engine ∧ rhs.Grouped engine ∧
      (∀ p ∈ rhs.leftEdge, rightBound entry ≤ p) ∧ ∀ b ∈ lhs.rightEdge, entry.precedence < b

end Phrase

namespace Reader

/-! ### Places before and after a phrase -/

theorem apart_nil : Apart [] := by
  rintro t ⟨⟩

theorem Only.apart {kinds : List Kind} {entry : Entry Unit} {trigger : Trigger}
    {rest : List Token} (h : Only engine kinds entry trigger rest) :
    Apart (trigger.tokens ++ rest) := by
  obtain ⟨t, tail, htokens, -, hdigit, hpoint⟩ := h.opens
  rw [htokens]
  rintro t' ⟨rfl⟩
  exact ⟨hdigit, hpoint⟩

theorem Closes.halts {close : List Token} (h : Closes engine close) (bound : Nat)
    (rest : List Token) : Halts engine bound (close ++ rest) := by
  obtain ⟨c, cs, rfl, hcloser, hspacing, -, -⟩ := h.closer
  refine ⟨skipSpace_cons_of_not _ hspacing, Or.inl ?_⟩
  rintro t ⟨rfl⟩
  exact Or.inr hcloser

theorem Closes.apart {close : List Token} (h : Closes engine close) (rest : List Token) :
    Apart (close ++ rest) := by
  obtain ⟨c, cs, rfl, -, -, hdigit, hpoint⟩ := h.closer
  rintro t ⟨rfl⟩
  exact ⟨hdigit, hpoint⟩

theorem Closes.proper {close : List Token} (h : Closes engine close) :
    Proper engine { minPrec := 0, close := some close } := by
  obtain ⟨c, cs, rfl, hcloser, -, -, -⟩ := h.closer
  rintro _ ⟨rfl⟩
  exact ⟨c, cs, rfl, hcloser⟩

/-- Reading on with a higher bound ends at an operator. -/
theorem Only.halts {entry : Entry Unit} {trigger : Trigger} {rest : List Token}
    (h : Only engine [.infixOp, .postfixOp] entry trigger rest) {bound : Nat}
    (hbound : entry.precedence < bound) : Halts engine bound (trigger.tokens ++ rest) := by
  obtain ⟨t, tail, htokens, hopens, -, -⟩ := h.opens
  obtain ⟨consumed, hfound⟩ := h.found
  refine ⟨?_, Or.inr ?_⟩
  · rw [htokens, List.cons_append]
    exact skipSpace_cons_of_not _ hopens.spacing
  · rw [hfound]
    refine ⟨List.cons_ne_nil _ _, ?_⟩
    intro found hmem
    rw [List.mem_singleton.mp hmem]
    exact hbound

/-- A trigger without blanks matches itself. -/
theorem matchTokens_append {pattern : List Token} (h : ∀ t ∈ pattern, t.isSpace = false)
    (rest : List Token) : matchTokens pattern (pattern ++ rest) = some rest := by
  induction pattern with
  | nil => cases rest <;> rfl
  | cons p ps ih =>
    cases ps with
    | nil => simp [matchTokens]
    | cons q qs =>
      have hq : q.isSpace = false := h q (by simp)
      have htail := ih fun t ht => h t (List.mem_cons_of_mem p ht)
      simpa [matchTokens, hq] using htail

/-- An entry is the only one at its trigger if no other reading of its kinds matches there. -/
theorem Only.of_readings {t : Token} {pre post : List (Reading Unit)} {entry : Entry Unit}
    {trigger : Trigger} (hreadings : engine.dictionary.readings t = pre ++ ⟨entry, trigger⟩ :: post)
    {tail : List Token} (htokens : trigger.tokens = t :: tail) (hopens : Opens engine t)
    (hdigit : t.isDigit = false) (hpoint : t ≠ .char '.') {kinds : List Kind}
    (hkind : entry.kind ∈ kinds) {rest : List Token}
    (hothers : ∀ r ∈ pre ++ post, r.entry.kind ∈ kinds →
      matchTokens r.trigger.tokens (trigger.tokens ++ rest) = none) :
    Only engine kinds entry trigger rest := by
  refine ⟨⟨t, tail, htokens, hopens, hdigit, hpoint⟩, ?_⟩
  have hmatch : matchTokens trigger.tokens (trigger.tokens ++ rest) = some rest :=
    matchTokens_append (Trigger.not_isSpace trigger) rest
  rw [htokens, List.cons_append] at hothers hmatch ⊢
  have hnone : ∀ r ∈ pre ++ post,
      (if r.entry.kind ∈ kinds then r.match? (t :: (tail ++ rest)) else none) = none := by
    intro r hr
    split
    · rename_i hmem
      rw [Reading.match?, hothers r hr hmem]
      rfl
    · rfl
  have hpre := List.filterMap_eq_nil_iff.mpr fun r hr => hnone r (List.mem_append_left post hr)
  have hpost := List.filterMap_eq_nil_iff.mpr fun r hr => hnone r (List.mem_append_right pre hr)
  refine ⟨(t :: (tail ++ rest)).length - rest.length, Dictionary.candidates_eq_singleton ?_⟩
  rw [hreadings, List.filterMap_append, List.filterMap_cons, hpre, hpost, if_pos hkind,
    Reading.match?, htokens, hmatch]
  rfl

/-- An entry is the only one at its trigger if no other of its kinds has the same tokens for a
    trigger and none with other tokens matches there. -/
theorem Only.of_entries {entries : List (Entry Unit)}
    (hd : Dictionary.Indexed entries engine.dictionary) {entry : Entry Unit}
    (hentry : entry ∈ entries) {trigger : Trigger} (htrigger : trigger ∈ entry.matchedTriggers)
    {t : Token} {tail : List Token} (htokens : trigger.tokens = t :: tail)
    (hopens : Opens engine t) (hdigit : t.isDigit = false) (hpoint : t ≠ .char '.')
    {kinds : List Kind} (hkind : entry.kind ∈ kinds)
    (hcount : ((readingsOf entries kinds t).map (·.trigger.tokens)).count trigger.tokens = 1)
    {rest : List Token}
    (hothers : ∀ r ∈ readingsOf entries kinds t, r.trigger.tokens ≠ trigger.tokens →
      matchTokens r.trigger.tokens (trigger.tokens ++ rest) = none) :
    Only engine kinds entry trigger rest := by
  have hmem : (⟨entry, trigger⟩ : Reading Unit) ∈ entries.flatMap (Entry.readingsAt t) := by
    refine List.mem_flatMap.mpr ⟨entry, hentry, List.mem_map.mpr ⟨trigger, ?_, rfl⟩⟩
    exact List.mem_filter.mpr ⟨htrigger, by rw [htokens]; simp⟩
  obtain ⟨pre, post, hsplit⟩ := List.append_of_mem hmem
  have hreadings := hd.readings_eq t
  rw [hsplit] at hreadings
  -- the trigger itself is the one with its tokens
  have hnone : ∀ r ∈ pre ++ post, r.entry.kind ∈ kinds → r.trigger.tokens ≠ trigger.tokens := by
    rw [readingsOf, hsplit, List.filter_append, List.filter_cons_of_pos (by simpa using hkind),
      List.map_append, List.map_cons, List.count_append, List.count_cons_self] at hcount
    have hpre : ((pre.filter (·.entry.kind ∈ kinds)).map (·.trigger.tokens)).count
        trigger.tokens = 0 := by omega
    have hpost : ((post.filter (·.entry.kind ∈ kinds)).map (·.trigger.tokens)).count
        trigger.tokens = 0 := by omega
    rw [List.count_eq_zero] at hpre hpost
    intro r hr hrkind heq
    rcases List.mem_append.mp hr with hr | hr
    · exact hpre (List.mem_map.mpr ⟨r, List.mem_filter.mpr ⟨hr, by simpa using hrkind⟩, heq⟩)
    · exact hpost (List.mem_map.mpr ⟨r, List.mem_filter.mpr ⟨hr, by simpa using hrkind⟩, heq⟩)
  refine Only.of_readings hreadings htokens hopens hdigit hpoint hkind ?_
  intro r hr hrkind
  refine hothers r (mem_readingsOf.mpr ⟨?_, hrkind⟩) (hnone r hr hrkind)
  rw [hsplit]
  rcases List.mem_append.mp hr with hr | hr
  · exact List.mem_append_left _ hr
  · exact List.mem_append_right _ (List.mem_cons_of_mem _ hr)

/-! ### Reading a phrase -/

theorem expression_of_primary (h : engine.Accepted) {stop : Terminator} {start rest : List Token}
    {e : Expr}
    (hprimary : primary engine engine.host (expression engine engine.host) stop start =
      pure (some e, rest)) :
    expression engine engine.host stop start =
      completed engine stop e rest := by
  rw [expression_eq h, hprimary]
  rfl

theorem expression_of_halts {stop : Terminator} {start rest : List Token} {e : Expr}
    (hread : expression engine engine.host stop start =
      completed engine stop e rest)
    (hhalts : Halts engine stop.minPrec rest) :
    expression engine engine.host stop start = pure (some e, rest) := by
  rw [hread, completed, more_of_halts hhalts]
  rfl

/-- **A grouped phrase is read as its value.**  Reading it comes to the same as having read it and
    going on with the operators behind it. -/
theorem read_phrase (h : engine.Accepted) {φ : Phrase} (hφ : φ.Grouped engine)
    {stop : Terminator} (hstop : Proper engine stop) {rest : List Token}
    (htight : ∀ p ∈ φ.leftEdge, stop.minPrec ≤ p)
    (hhalts : ∀ b ∈ φ.rightEdge, Halts engine b rest) (hapart : Apart rest) :
    expression engine engine.host stop (φ.tokens ++ rest) =
      completed engine stop (φ.value engine) rest := by
  induction φ generalizing stop rest with
  | leaf tokens value => exact expression_of_primary h (hφ stop rest hstop hapart)
  | spaced body ih =>
    have hbody := ih hφ hstop htight hhalts hapart
    rw [← expression_skipSpace h] at hbody ⊢
    exact hbody
  | around entry trigger close body ih =>
    obtain ⟨hrule, hclose, hcloses, honly, hbody⟩ := hφ
    have hfirst := honly (close.tokens ++ rest)
    obtain ⟨t, tail, htokens, hopens, -, -⟩ := hfirst.opens
    obtain ⟨consumed, hfound⟩ := hfirst.found
    -- the body ends where the closing trigger starts
    have hends : ∀ bound, Halts engine bound (close.tokens ++ rest) := fun bound =>
      hcloses.halts bound rest
    have hinside := expression_of_halts
      (ih hbody hcloses.proper (by simp) (fun b _ => hends b) (hcloses.apart rest)) (hends 0)
    have hend : matchTokens close.tokens (skipSpace (close.tokens ++ rest)) = some rest := by
      rw [(hends 0).1]
      exact matchTokens_append (Trigger.not_isSpace close) rest
    apply expression_of_primary h
    simp only [Phrase.tokens, htokens, List.append_assoc, List.cons_append] at hfound ⊢
    exact primary_around hstop hopens hfound hrule.kind_eq hrule.rule hrule.head_eq hclose
      hinside hend
  | before entry trigger operand ih =>
    obtain ⟨hrule, honly, hoperand, hleft⟩ := hφ
    have hfirst := honly rest
    obtain ⟨t, tail, htokens, hopens, -, -⟩ := hfirst.opens
    obtain ⟨consumed, hfound⟩ := hfirst.found
    have hinside := expression_of_halts
      (ih hoperand (hstop.withMinPrec (boundAbove entry.precedence)) hleft
        (fun b hb => hhalts b (List.mem_cons_of_mem _ hb)) hapart)
      (hhalts (boundAbove entry.precedence) List.mem_cons_self)
    apply expression_of_primary h
    simp only [Phrase.tokens, htokens, List.append_assoc, List.cons_append] at hfound ⊢
    exact primary_before hstop hopens hfound hrule.kind_eq hrule.rule hrule.head_eq hinside
  | between entry trigger lhs rhs ihl ihr =>
    obtain ⟨hrule, honly, hlhs, hrhs, hright, hleft⟩ := hφ
    have hfirst := honly rest
    obtain ⟨t, tail, htokens, hopens, -, -⟩ := hfirst.opens
    obtain ⟨consumed, hfound⟩ := hfirst.found
    have hread := ihl hlhs hstop (fun p hp => htight p (List.mem_cons_of_mem _ hp))
      (fun b hb => hfirst.halts (hleft b hb)) hfirst.apart
    have hinside := expression_of_halts
      (ihr hrhs (hstop.withMinPrec (rightBound entry)) hright
        (fun b hb => hhalts b (List.mem_cons_of_mem _ hb)) hapart)
      (hhalts (rightBound entry) List.mem_cons_self)
    have hbound : stop.minPrec ≤ entry.precedence := htight entry.precedence List.mem_cons_self
    simp only [Phrase.tokens, List.append_assoc]
    rw [hread]
    simp only [htokens, List.cons_append] at hfound ⊢
    rw [completed, more_between h hstop hopens hfound hrule.kind_eq hrule.rule hrule.head_eq hbound
      hinside]
    rfl

/-! ### A whole formula -/

theorem parseTokens_phrase (h : engine.Accepted) {φ : Phrase} (hφ : φ.Grouped engine) :
    engine.parseTokens φ.tokens = φ.value engine := by
  apply parseTokens_of_expression h
  have hread := read_phrase h hφ proper_default (fun p _ => Nat.zero_le p)
    (fun b _ => halts_nil b) apart_nil
  rw [List.append_nil] at hread
  exact expression_of_halts hread (halts_nil 0)

end Reader

end Formula
