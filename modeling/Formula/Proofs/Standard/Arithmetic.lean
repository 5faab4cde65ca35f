import Formula.Proofs.Standard.Operators

/-!
  **Arithmetic is read back unless a sum is negated.**

  The writer leaves the parentheses around a negated sum away, so its minus sign goes to the first
  operand of the sum when the text is read.  Every other operand stands in parentheses where it has
  to.  Hence an expression of arithmetic is read back if and only if nothing in it negates a sum or
  a difference.

  An expression that negates no sum is read as itself, up to sums in sums and products in products.
  Any other one has the same text as one that negates no sum: a minus sign in front of a sum is
  written where that in front of its first operand is.
-/

namespace Formula

open Latex Reader

/-- The operators between operands. -/
def operations : List String := ["Add", "Subtract", "Multiply", "Divide", "Power"]

/-- Expressions over letters and whole numbers.  Only sums and products have more than two
    operands. -/
inductive Arithmetic : Expr → Prop where
  | letter {c : Char} (alpha : c.isAlpha = true) : Arithmetic (.symbol (String.singleton c))
  | integer {n : Nat} (fits : n ≤ largestInteger) : Arithmetic (.number (.integer n))
  | negation {a : Expr} (operand : Arithmetic a) : Arithmetic (.call () "Negate" [a])
  | operation {head : String} {a b : Expr} {rest : List Expr} (named : head ∈ operations)
      (many : rest ≠ [] → head ∈ ["Add", "Multiply"])
      (operands : ∀ op ∈ a :: b :: rest, Arithmetic op) :
      Arithmetic (.call () head (a :: b :: rest))

/-- No sum is an operand of a sum and no product is an operand of a product. -/
def Flat (e : Expr) : Prop :=
  ∀ head ops, Tree.Occurs (.call () head ops) e → head ∈ ["Add", "Multiply"] →
    ∀ op ∈ ops, op.headName? ≠ some head

/-- Is this a sum or a difference? -/
def IsSum (e : Expr) : Prop := e.headName? = some "Add" ∨ e.headName? = some "Subtract"

/-- A sum or a difference is negated somewhere in the expression. -/
def NegatesSum (e : Expr) : Prop := ∃ a, Tree.Occurs (.call () "Negate" [a]) e ∧ IsSum a

/-! ### Negated sums -/

theorem not_negatesSum_of_occurs {a e : Expr} (h : Tree.Occurs a e) (he : ¬ NegatesSum e) :
    ¬ NegatesSum a := by
  rintro ⟨b, hoccurs, hsum⟩
  exact he ⟨b, hoccurs.trans h, hsum⟩

@[simp] theorem not_negatesSum_symbol (name : String) : ¬ NegatesSum (.symbol name) := by
  rintro ⟨b, hoccurs, -⟩
  cases hoccurs.symbol_eq

@[simp] theorem not_negatesSum_number (value : Number) : ¬ NegatesSum (.number value) := by
  rintro ⟨b, hoccurs, -⟩
  cases hoccurs.number_eq

theorem not_negatesSum_call {head : String} {ops : List Expr} (hhead : head ≠ "Negate")
    (hops : ∀ op ∈ ops, ¬ NegatesSum op) : ¬ NegatesSum (.call () head ops) := by
  rintro ⟨b, hoccurs, hsum⟩
  rcases hoccurs.call_cases with heq | ⟨op, hop, hin⟩
  · rw [Tree.call.injEq] at heq
    exact hhead heq.2.1.symm
  · exact hops op hop ⟨b, hin, hsum⟩

theorem not_negatesSum_negation {a : Expr} (ha : ¬ NegatesSum a) (hsum : ¬ IsSum a) :
    ¬ NegatesSum (.call () "Negate" [a]) := by
  rintro ⟨b, hoccurs, hb⟩
  rcases hoccurs.call_cases with heq | ⟨op, hop, hin⟩
  · rw [Tree.call.injEq, List.cons.injEq] at heq
    rw [heq.2.2.1] at hb
    exact hsum hb
  · rw [List.mem_singleton.mp hop] at hin
    exact ha ⟨b, hin, hb⟩

/-- Bringing a call into normal form negates nothing. -/
theorem not_negatesSum_normal {head : String} {ops : List Expr} (hhead : head ≠ "Negate")
    (hops : ∀ op ∈ ops, ¬ NegatesSum op) :
    ¬ NegatesSum ((Engine.standard : Engine Unit).call head ops) := by
  refine not_negatesSum_call hhead ?_
  intro x hx
  rcases Engine.mem_normalOps hx with rfl | ⟨op, hop, hin⟩
  · rintro ⟨b, hoccurs, -⟩
    rcases hoccurs.call_cases with heq | ⟨op, hop, -⟩
    · rw [Tree.call.injEq] at heq
      exact absurd heq.2.1 (by decide)
    · cases hop
  · exact not_negatesSum_of_occurs hin (hops op hop)

/-! ### Flat expressions -/

@[simp] theorem flat_symbol (name : String) : Flat (.symbol name) := by
  intro head ops hoccurs
  cases hoccurs.symbol_eq

@[simp] theorem flat_number (value : Number) : Flat (.number value) := by
  intro head ops hoccurs
  cases hoccurs.number_eq

theorem flat_call {head : String} {ops : List Expr} :
    Flat (.call () head ops) ↔
      (head ∈ ["Add", "Multiply"] → ∀ op ∈ ops, op.headName? ≠ some head) ∧
        ∀ op ∈ ops, Flat op := by
  constructor
  · intro h
    refine ⟨h head ops (.here _), ?_⟩
    intro op hop head' ops' hoccurs
    exact h head' ops' (.operand hop hoccurs)
  · rintro ⟨hhere, hops⟩ head' ops' hoccurs
    rcases hoccurs.call_cases with heq | ⟨op, hop, hin⟩
    · obtain ⟨-, rfl, rfl⟩ := Tree.call.inj heq
      exact hhere
    · exact hops op hop head' ops' hin

/-! ### The operators of arithmetic -/

theorem exists_entry {head : String} (h : head ∈ operations) :
    ∃ entry ∈ (Standard.operatorEntries : List (Entry Unit)),
      entry.kind = .infixOp ∧ entry.headName = head := by
  have htable : ∀ head ∈ operations, ∃ entry ∈ (Standard.operatorEntries : List (Entry Unit)),
      entry.kind = .infixOp ∧ entry.headName = head := by decide
  exact htable head h

theorem ne_negate {head : String} (h : head ∈ operations) : head ≠ "Negate" := by
  rintro rfl
  exact absurd h (by decide)

/-- The sign before an operand. -/
def minus : Entry Unit := .prefixOp "Negate" "-" 275

theorem minus_mem : minus ∈ (Standard.operatorEntries : List (Entry Unit)) := by
  simp [Standard.operatorEntries, minus]

theorem rootOperator_of_entry {entry : Entry Unit} (hentry : entry ∈ Standard.operatorEntries)
    (ops : List Expr) : rootOperator? (Engine.standard : Engine Unit).dictionary
      (.call () entry.headName ops) = some entry := by
  obtain ⟨trigger, hoperator⟩ := Engine.operator_standard hentry
  have htable : ∀ entry ∈ (Standard.operatorEntries : List (Entry Unit)),
      entry.kind = .infixOp ∨ entry.kind = .prefixOp := by decide
  exact hoperator.rootOperator (htable entry hentry) ops

theorem Arithmetic.root {e : Expr} (he : Arithmetic e) {o : Entry Unit}
    (hroot : rootOperator? (Engine.standard : Engine Unit).dictionary e = some o) :
    o ∈ Standard.operatorEntries ∧ e.headName? = some o.headName := by
  cases he with
  | letter => cases hroot
  | integer => cases hroot
  | negation =>
    have hminus := rootOperator_of_entry minus_mem
    obtain rfl : minus = o := Option.some.inj ((hminus _).symm.trans hroot)
    exact ⟨minus_mem, rfl⟩
  | operation named =>
    obtain ⟨entry, hentry, -, rfl⟩ := exists_entry named
    obtain rfl : entry = o := Option.some.inj ((rootOperator_of_entry hentry _).symm.trans hroot)
    exact ⟨hentry, rfl⟩

/-! ### Expressions that negate no sum -/

/-- What an expression that negates no sum is read as. -/
structure Reads (e r : Expr) : Prop where
  readAs : ReadAs Engine.standard e r
  headName_eq : r.headName? = e.headName?
  negates : ¬ NegatesSum r
  eq_of_flat : Flat e → r = e

/-- Operators of equal precedence group to the same side. -/
theorem sides_operatorEntries :
    ∀ entry ∈ (Standard.operatorEntries : List (Entry Unit)),
      ∀ o ∈ (Standard.operatorEntries : List (Entry Unit)), o.precedence = entry.precedence →
        o.associativity = .right → entry.associativity = .right := by
  decide

/-- Sums and products are read with all their operands. -/
theorem associative_operations :
    ∀ entry ∈ (Standard.operatorEntries : List (Entry Unit)),
      (entry.headName ∈ ["Add", "Multiply"] ↔
        (Engine.standard : Engine Unit).isAssociative entry.headName = true) ∧
      (entry.headName ∈ ["Add", "Multiply"] → entry.associativity ≠ .right) := by
  decide

theorem readAs_operation {head : String} {a b : Expr} {rest : List Expr}
    (named : head ∈ operations) (many : rest ≠ [] → head ∈ ["Add", "Multiply"])
    (ha : Arithmetic a) {rs : List Expr}
    (hreads : List.Forall₂ (ReadAs Engine.standard) (a :: b :: rest) rs) :
    ReadAs Engine.standard (.call () head (a :: b :: rest))
      ((Engine.standard : Engine Unit).call head rs) := by
  obtain ⟨entry, hentry, hkind, rfl⟩ := exists_entry named
  obtain ⟨trigger, hoperator⟩ := Engine.operator_standard hentry
  rw [hkind] at hoperator
  obtain ⟨a', rs, hfirst, htail, rfl⟩ := List.forall₂_cons_left_iff.mp hreads
  obtain ⟨b', rs, hsecond, hothers, rfl⟩ := List.forall₂_cons_left_iff.mp htail
  apply readAs_between Engine.parentheses_standard hoperator hfirst hsecond hothers
  · intro o hroot _
    exact sides_operatorEntries entry hentry o (ha.root hroot).1
  · intro hne
    obtain ⟨hassociative, hleft⟩ := associative_operations entry hentry
    exact ⟨hleft (many hne), hassociative.mp (many hne)⟩

/-- The operands of an operation are read one by one. -/
theorem reads_operation {head : String} {a b : Expr} {rest : List Expr} (named : head ∈ operations)
    (many : rest ≠ [] → head ∈ ["Add", "Multiply"]) (ha : Arithmetic a) {rs : List Expr}
    (hreads : List.Forall₂ Reads (a :: b :: rest) rs) :
    Reads (.call () head (a :: b :: rest)) ((Engine.standard : Engine Unit).call head rs) := by
  have hof : ∀ r ∈ rs, r.isGrouping = false ∧ ¬ NegatesSum r := by
    intro r hr
    obtain ⟨op, -, hop⟩ := exists_of_mem_forall₂ hreads hr
    exact ⟨hop.readAs.bare, hop.negates⟩
  refine ⟨readAs_operation named many ha (hreads.imp fun _ _ h => h.readAs), rfl, ?_, ?_⟩
  · exact not_negatesSum_normal (ne_negate named) fun r hr => (hof r hr).2
  · intro hflat
    obtain ⟨hhere, hops⟩ := flat_call.mp hflat
    have heq := eq_of_forall₂ hreads fun op hop r hr => hr.eq_of_flat (hops op hop)
    rw [heq] at hof ⊢
    apply Engine.call_of_none fun op hop => (hof op hop).1
    intro hassociative op hop
    obtain ⟨entry, hentry, -, rfl⟩ := exists_entry named
    have hhead := (associative_operations entry hentry).1.mpr hassociative
    exact Tree.isValidCall_of_headName (hhere hhead op hop)

/-- What binds as tightly as a minus sign is a sum or fits behind the sign. -/
theorem minus_fits :
    ∀ o ∈ (Standard.operatorEntries : List (Entry Unit)), minus.precedence ≤ o.precedence →
      o.headName = "Add" ∨ o.headName = "Subtract" ∨
        (minus.operandBound ≤ o.operandBound ∧
          (o.kind = .infixOp → minus.operandBound ≤ o.precedence)) := by
  decide

theorem readAs_negation {a r : Expr} (ha : Arithmetic a) (hsum : ¬ IsSum a)
    (hreads : ReadAs Engine.standard a r) :
    ReadAs Engine.standard (.call () "Negate" [a])
      ((Engine.standard : Engine Unit).call "Negate" [r]) := by
  obtain ⟨trigger, hoperator⟩ := Engine.operator_standard minus_mem
  have hplain : Plain trigger.tokens := by
    obtain rfl : Trigger.ofLatex "-" = trigger := Option.some.inj hoperator.first
    have htokens : (Trigger.ofLatex "-").tokens = [.char '-'] :=
      Trigger.tokens_of_word
        (word_char ⟨by decide, by decide, by decide, by decide, by decide⟩ (by decide))
        (by simp [Token.isSpace])
    rw [htokens]
    exact plain_of_head rfl []
  apply readAs_before Engine.parentheses_standard hoperator hplain hreads
  intro hneeds o hroot
  obtain ⟨hentry, hname⟩ := ha.root hroot
  obtain ⟨hle, -⟩ := le_of_not_needs hneeds hroot
  rcases minus_fits o hentry hle with heq | heq | ⟨hbound, hprecedence⟩
  · rw [heq] at hname
    exact absurd (Or.inl hname) hsum
  · rw [heq] at hname
    exact absurd (Or.inr hname) hsum
  · exact ⟨hbound, hprecedence⟩

/-- A minus sign before an operand that is no sum stays there. -/
theorem reads_negation {a r : Expr} (ha : Arithmetic a) (hsum : ¬ IsSum a) (hreads : Reads a r) :
    Reads (.call () "Negate" [a]) (.call () "Negate" [r]) := by
  have hcall : (Engine.standard : Engine Unit).call "Negate" [r] = .call () "Negate" [r] := by
    apply Engine.call_of_none
    · intro op hop
      rw [List.mem_singleton.mp hop]
      exact hreads.readAs.bare
    · intro hassociative
      exact absurd hassociative (by decide)
  refine ⟨?_, rfl, ?_, ?_⟩
  · rw [← hcall]
    exact readAs_negation ha hsum hreads.readAs
  · apply not_negatesSum_negation hreads.negates
    unfold IsSum
    rw [hreads.headName_eq]
    exact hsum
  · intro hflat
    rw [hreads.eq_of_flat ((flat_call.mp hflat).2 a List.mem_cons_self)]

/-- **An expression that negates no sum is read as itself,** but for sums in sums and products in
    products. -/
theorem exists_reads {e : Expr} (he : Arithmetic e) (hnegates : ¬ NegatesSum e) :
    ∃ r, Reads e r := by
  induction he with
  | letter alpha =>
    exact ⟨_, readAs_letter_standard alpha, rfl, hnegates, fun _ => rfl⟩
  | integer fits =>
    exact ⟨_, readAs_integer_standard fits, rfl, hnegates, fun _ => rfl⟩
  | @negation a operand ih =>
    have hsum : ¬ IsSum a := fun hsum => hnegates ⟨a, .here _, hsum⟩
    obtain ⟨r, hr⟩ := ih (not_negatesSum_of_occurs (.operand List.mem_cons_self (.here a)) hnegates)
    exact ⟨_, reads_negation operand hsum hr⟩
  | @operation head a b rest named many operands ih =>
    obtain ⟨rs, hrs⟩ := exists_forall₂ fun op hop =>
      ih op hop (not_negatesSum_of_occurs (.operand hop (.here op)) hnegates)
    exact ⟨_, reads_operation named many (operands a List.mem_cons_self) hrs⟩

/-! ### Expressions that negate a sum -/

theorem sameText_negation {a a' : Expr} (h : SameText Engine.standard a a') :
    SameText Engine.standard (.call () "Negate" [a]) (.call () "Negate" [a']) := by
  obtain ⟨trigger, hoperator⟩ := Engine.operator_standard minus_mem
  exact h.before hoperator

theorem sameText_operation {head : String} (named : head ∈ operations) {ops ops' : List Expr}
    (hcount : 2 ≤ ops.length) (h : List.Forall₂ (SameText Engine.standard) ops ops') :
    SameText Engine.standard (.call () head ops) (.call () head ops') := by
  obtain ⟨entry, hentry, hkind, rfl⟩ := exists_entry named
  obtain ⟨trigger, hoperator⟩ := Engine.operator_standard hentry
  rw [hkind] at hoperator
  exact SameText.between hoperator hcount h

/-- A negated sum is written as the sum with its first operand negated. -/
theorem sameText_sum {head : String} (hsum : head = "Add" ∨ head = "Subtract") (a b : Expr)
    (rest : List Expr) :
    SameText Engine.standard (.call () "Negate" [.call () head (a :: b :: rest)])
      (.call () head (.call () "Negate" [a] :: b :: rest)) := by
  have htable : ∀ head ∈ ["Add", "Subtract"],
      ∃ entry ∈ (Standard.operatorEntries : List (Entry Unit)),
        entry.headName = head ∧ entry.kind = .infixOp ∧ entry.precedence = minus.precedence ∧
          entry.associativity = .left := by decide
  obtain ⟨entry, hentry, rfl, hkind, hprecedence, hleft⟩ := htable head (by simpa using hsum)
  obtain ⟨sign, hminus⟩ := Engine.operator_standard minus_mem
  obtain ⟨trigger, hoperator⟩ := Engine.operator_standard hentry
  rw [hkind] at hoperator
  obtain rfl : Trigger.ofLatex "-" = sign := Option.some.inj hminus.first
  exact SameText.sign hminus rfl rfl (by decide) hoperator hprecedence hleft a b rest

/-- The second expression has the text of the first and negates no sum: minus signs before sums
    stand before their first operands. -/
structure SignsMoved (e e' : Expr) : Prop where
  arithmetic : Arithmetic e'
  negates : ¬ NegatesSum e'
  sameText : SameText Engine.standard e e'
  eq_of_none : ¬ NegatesSum e → e' = e

theorem SignsMoved.self {e : Expr} (he : Arithmetic e) (hnegates : ¬ NegatesSum e) :
    SignsMoved e e := ⟨he, hnegates, .refl e, fun _ => rfl⟩

/-- The sign before a sum moves on to its first operand. -/
theorem SignsMoved.sum {head : String} {a a' b : Expr} {rest : List Expr}
    (named : head ∈ operations) (many : rest ≠ [] → head ∈ ["Add", "Multiply"])
    (hsum : head = "Add" ∨ head = "Subtract")
    (hothers : ∀ op ∈ b :: rest, Arithmetic op ∧ ¬ NegatesSum op)
    (ha : SignsMoved (.call () "Negate" [a]) a') :
    SignsMoved (.call () "Negate" [.call () head (a :: b :: rest)])
      (.call () head (a' :: b :: rest)) := by
  have hops : ∀ op ∈ a' :: b :: rest, Arithmetic op ∧ ¬ NegatesSum op := by
    intro op hop
    rcases List.mem_cons.mp hop with rfl | hop
    · exact ⟨ha.arithmetic, ha.negates⟩
    · exact hothers op hop
  have hrest : List.Forall₂ (SameText Engine.standard) (b :: rest) (b :: rest) :=
    List.forall₂_same.mpr fun op _ => .refl op
  refine ⟨.operation named many fun op hop => (hops op hop).1, ?_, ?_, ?_⟩
  · exact not_negatesSum_call (ne_negate named) fun op hop => (hops op hop).2
  · exact (sameText_sum hsum a b rest).trans
      (sameText_operation named (by simp) (.cons ha.sameText hrest))
  · intro hnone
    apply absurd _ hnone
    refine ⟨_, .here _, ?_⟩
    rcases hsum with rfl | rfl
    · exact Or.inl rfl
    · exact Or.inr rfl

/-- A sign moves on until it stands before what is no sum. -/
theorem exists_signsMoved_negation {e : Expr} (he : Arithmetic e) (hnegates : ¬ NegatesSum e) :
    ∃ e', SignsMoved (.call () "Negate" [e]) e' := by
  have hplain : ∀ {a : Expr}, Arithmetic a → ¬ NegatesSum a → ¬ IsSum a →
      ∃ e', SignsMoved (.call () "Negate" [a]) e' := by
    intro a ha hnegates hsum
    exact ⟨_, .self (.negation ha) (not_negatesSum_negation hnegates hsum)⟩
  induction he with
  | letter alpha => exact hplain (.letter alpha) hnegates (by simp [IsSum, Tree.headName?])
  | integer fits => exact hplain (.integer fits) hnegates (by simp [IsSum, Tree.headName?])
  | negation operand => exact hplain (.negation operand) hnegates (by simp [IsSum, Tree.headName?])
  | @operation head a b rest named many operands ih =>
    have hinner : ∀ op ∈ a :: b :: rest, ¬ NegatesSum op := fun op hop =>
      not_negatesSum_of_occurs (.operand hop (.here op)) hnegates
    by_cases hsum : head = "Add" ∨ head = "Subtract"
    · obtain ⟨a', ha⟩ := ih a List.mem_cons_self (hinner a List.mem_cons_self)
      refine ⟨_, ha.sum named many hsum ?_⟩
      intro op hop
      have hmem := List.mem_cons_of_mem a hop
      exact ⟨operands op hmem, hinner op hmem⟩
    · apply hplain (.operation named many operands) hnegates
      simpa [IsSum, Tree.headName?] using hsum

/-- Signs move in the operands of an operation one by one. -/
theorem SignsMoved.operation {head : String} {a b : Expr} {rest ops : List Expr}
    (named : head ∈ operations) (many : rest ≠ [] → head ∈ ["Add", "Multiply"])
    (hops : List.Forall₂ SignsMoved (a :: b :: rest) ops) :
    SignsMoved (.call () head (a :: b :: rest)) (.call () head ops) := by
  have hof : ∀ op' ∈ ops, Arithmetic op' ∧ ¬ NegatesSum op' := by
    intro op' hop'
    obtain ⟨op, -, hmoved⟩ := exists_of_mem_forall₂ hops hop'
    exact ⟨hmoved.arithmetic, hmoved.negates⟩
  refine ⟨?_, ?_, ?_, ?_⟩
  · obtain ⟨a', _, -, htail, rfl⟩ := List.forall₂_cons_left_iff.mp hops
    obtain ⟨b', rest', -, hrest, rfl⟩ := List.forall₂_cons_left_iff.mp htail
    refine .operation named ?_ fun op' hop' => (hof op' hop').1
    intro hne
    apply many
    rintro rfl
    exact hne (List.forall₂_nil_left_iff.mp hrest)
  · exact not_negatesSum_call (ne_negate named) fun op' hop' => (hof op' hop').2
  · exact sameText_operation named (by simp) (hops.imp fun _ _ h => h.sameText)
  · intro hnone
    rw [eq_of_forall₂ hops fun op hop op' hmoved => hmoved.eq_of_none
      (not_negatesSum_of_occurs (.operand hop (.here op)) hnone)]

/-- **Every expression has the text of one that negates no sum.** -/
theorem exists_signsMoved {e : Expr} (he : Arithmetic e) : ∃ e', SignsMoved e e' := by
  induction he with
  | letter alpha => exact ⟨_, .self (.letter alpha) (not_negatesSum_symbol _)⟩
  | integer fits => exact ⟨_, .self (.integer fits) (not_negatesSum_number _)⟩
  | @negation a operand ih =>
    obtain ⟨a', ha⟩ := ih
    obtain ⟨e', he⟩ := exists_signsMoved_negation ha.arithmetic ha.negates
    refine ⟨e', he.arithmetic, he.negates, (sameText_negation ha.sameText).trans he.sameText, ?_⟩
    intro hnone
    have hinner := not_negatesSum_of_occurs (.operand List.mem_cons_self (.here a)) hnone
    rw [ha.eq_of_none hinner] at he
    exact he.eq_of_none hnone
  | operation named many operands ih =>
    obtain ⟨ops, hops⟩ := exists_forall₂ ih
    exact ⟨_, .operation named many hops⟩

/-! ### Reading what is written -/

/-- **An expression of arithmetic is read back if and only if it negates no sum.** -/
theorem parse_latex_arithmetic {e : Expr} (he : Arithmetic e) (hflat : Flat e) :
    (Engine.standard : Engine Unit).parse (Engine.standard.latex e) = e ↔ ¬ NegatesSum e := by
  obtain ⟨e', hmoved⟩ := exists_signsMoved he
  obtain ⟨r, hreads⟩ := exists_reads hmoved.arithmetic hmoved.negates
  have hparse : (Engine.standard : Engine Unit).parse (Engine.standard.latex e) = r := by
    rw [hmoved.sameText.latex_eq]
    exact hreads.readAs.parse_eq Engine.accepted_standard
  rw [hparse]
  constructor
  · rintro rfl
    exact hreads.negates
  · intro hnone
    have heq := hmoved.eq_of_none hnone
    rw [heq] at hreads
    exact hreads.eq_of_flat hflat

/-- A negated product is read back from `-2\cdot x-y`. -/
theorem parse_latex_negated_product :
    Arithmetic (.call () "Subtract"
      [.call () "Negate" [.call () "Multiply" [.number (.integer 2), .symbol "x"]], .symbol "y"]) ∧
    Flat (.call () "Subtract"
      [.call () "Negate" [.call () "Multiply" [.number (.integer 2), .symbol "x"]], .symbol "y"]) ∧
    (Engine.standard : Engine Unit).parse (Engine.standard.latex (.call () "Subtract"
      [.call () "Negate" [.call () "Multiply" [.number (.integer 2), .symbol "x"]], .symbol "y"])) =
      .call () "Subtract"
        [.call () "Negate" [.call () "Multiply" [.number (.integer 2), .symbol "x"]],
          .symbol "y"] := by
  have hx : Arithmetic (.symbol "x") := @Arithmetic.letter 'x' (by decide)
  have hy : Arithmetic (.symbol "y") := @Arithmetic.letter 'y' (by decide)
  have htwo : Arithmetic (.number (.integer 2)) := @Arithmetic.integer 2 (by decide)
  have hproduct : Arithmetic (.call () "Multiply" [.number (.integer 2), .symbol "x"]) :=
    .operation (by decide) (by simp) (by simp [hx, htwo])
  have harithmetic : Arithmetic (.call () "Subtract"
      [.call () "Negate" [.call () "Multiply" [.number (.integer 2), .symbol "x"]],
        .symbol "y"]) :=
    .operation (by decide) (by simp) (by simp [hy, Arithmetic.negation hproduct])
  have hflat : Flat (.call () "Subtract"
      [.call () "Negate" [.call () "Multiply" [.number (.integer 2), .symbol "x"]],
        .symbol "y"]) := by
    simp [flat_call, Tree.headName?]
  refine ⟨harithmetic, hflat, (parse_latex_arithmetic harithmetic hflat).mpr ?_⟩
  refine not_negatesSum_call (by decide) ?_
  simp only [List.mem_cons, List.not_mem_nil, or_false, forall_eq_or_imp, forall_eq]
  refine ⟨not_negatesSum_negation (not_negatesSum_call (by decide) (by simp)) ?_, by simp⟩
  simp [IsSum, Tree.headName?]

/-- A negated sum is not: `-a+b` is read as a sum. -/
theorem parse_latex_negated_sum :
    Arithmetic (.call () "Negate" [.call () "Add" [.symbol "a", .symbol "b"]]) ∧
    Flat (.call () "Negate" [.call () "Add" [.symbol "a", .symbol "b"]]) ∧
    (Engine.standard : Engine Unit).parse (Engine.standard.latex
      (.call () "Negate" [.call () "Add" [.symbol "a", .symbol "b"]])) ≠
        .call () "Negate" [.call () "Add" [.symbol "a", .symbol "b"]] := by
  have ha : Arithmetic (.symbol "a") := @Arithmetic.letter 'a' (by decide)
  have hb : Arithmetic (.symbol "b") := @Arithmetic.letter 'b' (by decide)
  refine ⟨.negation (.operation (by decide) (by simp) (by simp [ha, hb])), ?_, ?_⟩
  · simp [flat_call, Tree.headName?]
  · intro heq
    have hsame := sameText_sum (Or.inl rfl) (.symbol "a") (.symbol "b") []
    have hsum : Arithmetic (.call () "Add" [.call () "Negate" [.symbol "a"], .symbol "b"]) :=
      .operation (by decide) (by simp) (by simp [hb, Arithmetic.negation ha])
    have hnegates :
        ¬ NegatesSum (.call () "Add" [.call () "Negate" [.symbol "a"], .symbol "b"]) := by
      apply not_negatesSum_call (by decide)
      have hsign := not_negatesSum_negation (not_negatesSum_symbol "a")
        (by simp [IsSum, Tree.headName?])
      simp [hsign]
    obtain ⟨r, hreads⟩ := exists_reads hsum hnegates
    have hparse := hreads.readAs.parse_eq Engine.accepted_standard
    have hhead := hreads.headName_eq
    rw [← hparse, ← hsame.latex_eq, heq] at hhead
    exact absurd hhead (by decide)

end Formula
