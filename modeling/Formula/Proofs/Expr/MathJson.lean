import Formula.Expr.MathJson
import Mathlib.Data.List.Infix
import Mathlib.Data.List.TakeWhile

/-!
  **The MathJSON text tells expressions apart.**

  Symbols, names and strings are all written as JSON strings, and what tells a string from a symbol
  is the pair of single quotes around it.  A symbol whose name stands in single quotes is written
  like a string, and an expression that heads a call is written like a name if it is a symbol.
  Apart from these, and from floating-point numbers, different expressions have different texts.

  The texts of the characters are a prefix code in which no word starts with a double quote, so a
  JSON string ends where its closing quote is; a number ends where no digit follows.  From there on
  the induction is on the expression: it says that the text together with anything behind it that
  is no digit determines both.
-/

namespace Formula

namespace MathJson

/-! ### Characters and strings -/

/-- The characters that do not stand for themselves in a JSON string. -/
def escapedChars : List Char := '"' :: '\\' :: (List.range 32).map Char.ofNat

theorem mem_escapedChars_of_lt {c : Char} (h : c.toNat < 32) : c ∈ escapedChars := by
  have hc : Char.ofNat c.toNat ∈ (List.range 32).map Char.ofNat :=
    List.mem_map_of_mem (List.mem_range.mpr h)
  rw [Char.ofNat_toNat] at hc
  exact List.mem_cons_of_mem _ (List.mem_cons_of_mem _ hc)

/-- A character that needs no escape is not one of the two that a reader looks for. -/
theorem escape_of_not_mem {c : Char} (h : c ∉ escapedChars) :
    escape c = [c] ∧ c ≠ '"' ∧ c ≠ '\\' := by
  have hne : ∀ d ∈ escapedChars, c ≠ d := by
    rintro d hd rfl
    exact h hd
  have hlarge : ¬ c.toNat < 32 := fun hlt => h (mem_escapedChars_of_lt hlt)
  have hquote := hne '"' (by decide)
  have hslash := hne '\\' (by decide)
  have height : c.toNat ≠ 8 := by omega
  have htwelve : c.toNat ≠ 12 := by omega
  refine ⟨?_, hquote, hslash⟩
  simp [escape, hquote, hslash, hne '\n' (by decide), hne '\r' (by decide), hne '\t' (by decide),
    hlarge, height, htwelve]

theorem escape_of_mem : ∀ c ∈ escapedChars, (escape c).head? = some '\\' := by
  have hall : escapedChars.all (fun c => (escape c).head? == some '\\') = true := by
    decide +kernel
  intro c hc
  exact beq_iff_eq.mp (List.all_eq_true.mp hall c hc)

theorem escape_code :
    ∀ c ∈ escapedChars, ∀ d ∈ escapedChars, escape c <+: escape d → c = d := by
  have hall : escapedChars.all (fun c => escapedChars.all fun d =>
      !(escape c).isPrefixOf (escape d) || c == d) = true := by
    decide +kernel
  intro c hc d hd hstart
  have hcd := List.all_eq_true.mp (List.all_eq_true.mp hall c hc) d hd
  rw [List.isPrefixOf_iff_prefix.mpr hstart, Bool.not_true, Bool.false_or] at hcd
  exact beq_iff_eq.mp hcd

/-- The texts of the characters are a prefix code. -/
theorem eq_of_escaped_start {c d : Char} (h : escape c <+: escape d) : c = d := by
  by_cases hc : c ∈ escapedChars
  · by_cases hd : d ∈ escapedChars
    · exact escape_code c hc d hd h
    · -- only an escape starts with a backslash
      obtain ⟨hself, -, hslash⟩ := escape_of_not_mem hd
      obtain ⟨tail, hhead⟩ := List.head?_eq_some_iff.mp (escape_of_mem c hc)
      rw [hself, hhead, List.cons_prefix_cons] at h
      exact absurd h.1.symm hslash
  · obtain ⟨hself, -, hslash⟩ := escape_of_not_mem hc
    by_cases hd : d ∈ escapedChars
    · obtain ⟨tail, hhead⟩ := List.head?_eq_some_iff.mp (escape_of_mem d hd)
      rw [hself, hhead, List.cons_prefix_cons] at h
      exact absurd h.1 hslash
    · rw [hself, (escape_of_not_mem hd).1, List.cons_prefix_cons] at h
      exact h.1

theorem escape_append_inj {c d : Char} {r s : List Char} (h : escape c ++ r = escape d ++ s) :
    c = d ∧ r = s := by
  have hfirst : escape c <+: escape c ++ r := List.prefix_append _ _
  have hsecond : escape d <+: escape c ++ r := h ▸ List.prefix_append _ _
  have heq : c = d := by
    rcases List.prefix_or_prefix_of_prefix hfirst hsecond with hcd | hdc
    · exact eq_of_escaped_start hcd
    · exact (eq_of_escaped_start hdc).symm
  subst heq
  exact ⟨rfl, List.append_cancel_left h⟩

/-- The text of a character is not the end of a string. -/
theorem escape_append_ne (c : Char) (r s : List Char) : escape c ++ r ≠ '"' :: s := by
  intro h
  by_cases hc : c ∈ escapedChars
  · obtain ⟨tail, hhead⟩ := List.head?_eq_some_iff.mp (escape_of_mem c hc)
    rw [hhead, List.cons_append] at h
    exact absurd (List.cons.inj h).1 (by decide)
  · obtain ⟨hself, hquote, -⟩ := escape_of_not_mem hc
    rw [hself, List.cons_append] at h
    exact hquote (List.cons.inj h).1

/-- A string ends at its closing quote. -/
theorem quote_append_inj {a b r s : List Char} (h : quote a ++ r = quote b ++ s) :
    a = b ∧ r = s := by
  have hbody : a.flatMap escape ++ '"' :: r = b.flatMap escape ++ '"' :: s := by
    simpa [quote] using h
  clear h
  induction a generalizing b with
  | nil =>
    cases b with
    | nil => exact ⟨rfl, (List.cons.inj hbody).2⟩
    | cons d b =>
      rw [List.flatMap_cons, List.append_assoc] at hbody
      exact absurd hbody.symm (escape_append_ne d _ _)
  | cons c a ih =>
    cases b with
    | nil =>
      rw [List.flatMap_cons, List.append_assoc] at hbody
      exact absurd hbody (escape_append_ne c _ _)
    | cons d b =>
      rw [List.flatMap_cons, List.flatMap_cons, List.append_assoc, List.append_assoc] at hbody
      obtain ⟨rfl, hrest⟩ := escape_append_inj hbody
      obtain ⟨rfl, hafter⟩ := ih hrest
      exact ⟨rfl, hafter⟩

/-! ### Numbers -/

/-- A number may end here. -/
def EndsNumber (rest : List Char) : Prop := rest.head?.any Char.isDigit = false

theorem endsNumber_nil : EndsNumber [] := rfl

theorem digits_append_inj {ds es r s : List Char} (hds : ∀ c ∈ ds, c.isDigit = true)
    (hes : ∀ c ∈ es, c.isDigit = true) (hr : EndsNumber r) (hs : EndsNumber s)
    (h : ds ++ r = es ++ s) : ds = es ∧ r = s := by
  have hstop : ∀ {rest : List Char}, EndsNumber rest →
      rest.takeWhile Char.isDigit = [] ∧ rest.dropWhile Char.isDigit = rest := by
    intro rest hrest
    cases rest with
    | nil => exact ⟨rfl, rfl⟩
    | cons c rest =>
      have hc : c.isDigit = false := hrest
      simp [hc]
  have htake := congrArg (List.takeWhile Char.isDigit) h
  have hdrop := congrArg (List.dropWhile Char.isDigit) h
  rw [List.takeWhile_append_of_pos hds, List.takeWhile_append_of_pos hes, (hstop hr).1,
    (hstop hs).1, List.append_nil, List.append_nil] at htake
  rw [List.dropWhile_append_of_pos hds, List.dropWhile_append_of_pos hes, (hstop hr).2,
    (hstop hs).2] at hdrop
  exact ⟨htake, hdrop⟩

theorem isDigit_toDigits (n : Nat) : ∀ c ∈ Nat.toDigits 10 n, c.isDigit = true := fun _ hc =>
  Nat.isDigit_of_mem_toDigits (by decide) (by decide) hc

theorem toDigits_append_inj {m n : Nat} {r s : List Char} (hr : EndsNumber r) (hs : EndsNumber s)
    (h : Nat.toDigits 10 m ++ r = Nat.toDigits 10 n ++ s) : m = n ∧ r = s := by
  obtain ⟨hdigits, hrest⟩ :=
    digits_append_inj (isDigit_toDigits m) (isDigit_toDigits n) hr hs h
  refine ⟨?_, hrest⟩
  rw [← Nat.ofDigitChars_ten_toDigits (n := m), hdigits, Nat.ofDigitChars_ten_toDigits]

/-- A whole number starts with a digit or with the sign. -/
theorem exists_ofInt (value : Int) :
    ∃ c tail, ofInt value = c :: tail ∧ (c.isDigit = true ∨ c = '-') := by
  obtain ⟨d, digits, hdigits⟩ := List.exists_cons_of_ne_nil
    (Nat.toDigits_ne_nil (b := 10) (n := value.natAbs))
  by_cases hneg : value < 0
  · exact ⟨'-', _, if_pos hneg, Or.inr rfl⟩
  · refine ⟨d, digits, ?_, Or.inl ?_⟩
    · rw [ofInt, if_neg hneg, hdigits]
    · apply isDigit_toDigits value.natAbs
      rw [hdigits]
      exact List.mem_cons_self

theorem ofInt_append_inj {m n : Int} {r s : List Char} (hr : EndsNumber r) (hs : EndsNumber s)
    (h : ofInt m ++ r = ofInt n ++ s) : m = n ∧ r = s := by
  have hsign : ∀ (k : Nat) (r s : List Char), Nat.toDigits 10 k ++ r ≠ '-' :: s := by
    intro k r s heq
    obtain ⟨d, digits, hdigits⟩ := List.exists_cons_of_ne_nil
      (Nat.toDigits_ne_nil (b := 10) (n := k))
    have hd := isDigit_toDigits k d (by rw [hdigits]; exact List.mem_cons_self)
    rw [hdigits, List.cons_append] at heq
    rw [(List.cons.inj heq).1] at hd
    cases hd
  unfold ofInt at h
  split at h
  · split at h
    · obtain ⟨habs, hrest⟩ := toDigits_append_inj hr hs (List.cons.inj h).2
      exact ⟨by omega, hrest⟩
    · exact absurd h.symm (hsign _ _ _)
  · split at h
    · exact absurd h (hsign _ _ _)
    · obtain ⟨habs, hrest⟩ := toDigits_append_inj hr hs h
      exact ⟨by omega, hrest⟩

/-- The name is written like a string. -/
def Quoted (name : String) : Prop :=
  name.toList.head? = some '\'' ∧ name.toList.getLast? = some '\''

instance (name : String) : Decidable (Quoted name) := inferInstanceAs (Decidable (_ ∧ _))

theorem quoted_of_eq {name : String} {value : List Char}
    (h : name.toList = '\'' :: value ++ ['\'']) : Quoted name := by
  rw [Quoted, h]
  exact ⟨rfl, List.getLast?_concat⟩

end MathJson

open MathJson

namespace Tree

variable {α : Type}

/-! ### Expressions that their text tells apart -/

mutual

/-- No floating-point number occurs, no name stands in single quotes, and no head that is an
    expression is a bare symbol. -/
def Unambiguous : Tree α → Prop
  | .number (.integer _) => True
  | .number (.float _) => False
  | .symbol name => ¬ Quoted name
  | .text _ => True
  | .call _ head ops => ¬ Quoted head ∧ AllUnambiguous ops
  | .applied _ head ops => head.symbolName? = none ∧ head.Unambiguous ∧ AllUnambiguous ops

def AllUnambiguous : List (Tree α) → Prop
  | [] => True
  | op :: rest => op.Unambiguous ∧ AllUnambiguous rest

end

/-- The first character tells numbers, strings and arrays apart. -/
inductive Form where
  | number
  | string
  | array
deriving DecidableEq

def formOf (c : Char) : Form :=
  if c = '"' then .string else if c = '[' then .array else .number

/-- What an expression is written as. -/
def form : Tree α → Form
  | .number _ => .number
  | .symbol _ => .string
  | .text _ => .string
  | .call .. => .array
  | .applied .. => .array

theorem exists_mathJsonChars {e : Tree α} (h : e.Unambiguous) :
    ∃ c tail, e.mathJsonChars = c :: tail ∧ formOf c = e.form := by
  cases e with
  | number value =>
    cases value with
    | integer value =>
      obtain ⟨c, tail, hchars, hc⟩ := exists_ofInt value
      refine ⟨c, tail, hchars, ?_⟩
      have hquote : c ≠ '"' := by
        rintro rfl
        rcases hc with hc | hc <;> cases hc
      have hbracket : c ≠ '[' := by
        rintro rfl
        rcases hc with hc | hc <;> cases hc
      rw [formOf, if_neg hquote, if_neg hbracket, form]
    | float value => exact h.elim
  | symbol name => exact ⟨'"', _, rfl, rfl⟩
  | text value => exact ⟨'"', _, rfl, rfl⟩
  | call label head ops => exact ⟨'[', _, rfl, rfl⟩
  | applied label head ops => exact ⟨'[', _, rfl, rfl⟩

theorem form_eq {a b : Tree α} (ha : a.Unambiguous) (hb : b.Unambiguous) {r s : List Char}
    (h : a.mathJsonChars ++ r = b.mathJsonChars ++ s) : a.form = b.form := by
  obtain ⟨c, tail, hchars, hc⟩ := exists_mathJsonChars ha
  obtain ⟨c', tail', hchars', hc'⟩ := exists_mathJsonChars hb
  rw [hchars, hchars', List.cons_append, List.cons_append] at h
  rw [← hc, ← hc', (List.cons.inj h).1]

/-- Behind an expression among operands no number goes on. -/
theorem endsNumber_operands (ops : List (Tree α)) (rest : List Char) :
    EndsNumber (mathJsonOperands ops ++ rest) := by
  cases ops <;> rfl

/-! ### The text determines the expression -/

/-- Only a symbol is written like a name. -/
theorem eq_symbol_of_mathJsonChars {name : String} (hname : ¬ Quoted name) {e : Tree α}
    (he : e.Unambiguous) {r s : List Char} (h : quote name.toList ++ r = e.mathJsonChars ++ s) :
    e = .symbol name ∧ r = s := by
  have hform : form (.symbol name : Tree α) = e.form := form_eq hname he h
  cases e with
  | symbol name' =>
    obtain ⟨hchars, hrest⟩ := quote_append_inj h
    exact ⟨by rw [String.toList_inj.mp hchars], hrest⟩
  | text value =>
    obtain ⟨hchars, -⟩ := quote_append_inj h
    exact absurd (quoted_of_eq hchars) hname
  | number value => cases hform
  | call label head ops => cases hform
  | applied label head ops => cases hform

mutual

/-- An expression is known from its text, whatever stands behind it. -/
theorem mathJsonChars_append_inj (a b : Tree α) (ha : a.Unambiguous) (hb : b.Unambiguous)
    {r s : List Char} (hr : EndsNumber r) (hs : EndsNumber s)
    (h : a.mathJsonChars ++ r = b.mathJsonChars ++ s) : a.same b = true ∧ r = s := by
  have hform := form_eq ha hb h
  match a, b with
  | .number (.integer m), .number (.integer n) =>
    obtain ⟨rfl, hrest⟩ := ofInt_append_inj hr hs h
    exact ⟨beq_self_eq_true m, hrest⟩
  | .number (.float x), _ => exact ha.elim
  | _, .number (.float y) => exact hb.elim
  | .symbol name, e =>
    obtain ⟨rfl, hrest⟩ := eq_symbol_of_mathJsonChars ha hb h
    exact ⟨beq_self_eq_true name, hrest⟩
  | .text value, .text value' =>
    obtain ⟨hchars, hrest⟩ := quote_append_inj h
    obtain rfl := String.toList_inj.mp (List.append_cancel_right (List.cons.inj hchars).2)
    exact ⟨beq_self_eq_true value, hrest⟩
  | .text value, .symbol name =>
    cases (eq_symbol_of_mathJsonChars hb ha h.symm).1
  | .call label head ops, .call label' head' ops' =>
    obtain ⟨hhead, hops⟩ := ha
    obtain ⟨hhead', hops'⟩ := hb
    simp only [mathJsonChars, List.cons_append, List.append_assoc] at h
    obtain ⟨hchars, hrest⟩ := quote_append_inj (List.cons.inj h).2
    obtain rfl := String.toList_inj.mp hchars
    obtain ⟨hall, hend⟩ := mathJsonOperands_append_inj ops ops' hops hops' hrest
    exact ⟨by rw [same, hall, beq_self_eq_true, Bool.and_true], hend⟩
  | .call label head ops, .applied label' head' ops' =>
    obtain ⟨hsymbol, hhead', -⟩ := hb
    simp only [mathJsonChars, List.cons_append, List.append_assoc] at h
    obtain ⟨rfl, -⟩ := eq_symbol_of_mathJsonChars ha.1 hhead' (List.cons.inj h).2
    cases hsymbol
  | .applied label head ops, .call label' head' ops' =>
    obtain ⟨hsymbol, hhead, -⟩ := ha
    simp only [mathJsonChars, List.cons_append, List.append_assoc] at h
    obtain ⟨rfl, -⟩ := eq_symbol_of_mathJsonChars hb.1 hhead (List.cons.inj h).2.symm
    cases hsymbol
  | .applied label head ops, .applied label' head' ops' =>
    obtain ⟨-, hhead, hops⟩ := ha
    obtain ⟨-, hhead', hops'⟩ := hb
    simp only [mathJsonChars, List.cons_append, List.append_assoc] at h
    obtain ⟨hsame, hrest⟩ := mathJsonChars_append_inj head head' hhead hhead'
      (endsNumber_operands ops r) (endsNumber_operands ops' s) (List.cons.inj h).2
    obtain ⟨hall, hend⟩ := mathJsonOperands_append_inj ops ops' hops hops' hrest
    exact ⟨by rw [same, hall, hsame, Bool.and_true], hend⟩

/-- Operands are known from their texts, which end with the bracket that closes the call. -/
theorem mathJsonOperands_append_inj (as bs : List (Tree α)) (ha : AllUnambiguous as)
    (hb : AllUnambiguous bs) {r s : List Char}
    (h : mathJsonOperands as ++ r = mathJsonOperands bs ++ s) :
    sameAll as bs = true ∧ r = s := by
  match as, bs with
  | [], [] => exact ⟨rfl, (List.cons.inj h).2⟩
  | [], b :: bs => exact absurd (List.cons.inj h).1 (by decide)
  | a :: as, [] => exact absurd (List.cons.inj h).1 (by decide)
  | a :: as, b :: bs =>
    simp only [mathJsonOperands, List.cons_append, List.append_assoc] at h
    obtain ⟨hsame, hrest⟩ := mathJsonChars_append_inj a b ha.1 hb.1
      (endsNumber_operands as r) (endsNumber_operands bs s) (List.cons.inj h).2
    obtain ⟨hall, hend⟩ := mathJsonOperands_append_inj as bs ha.2 hb.2 hrest
    exact ⟨by rw [sameAll, hsame, hall, Bool.and_true], hend⟩

end

mutual

/-- Equal expressions without floating-point numbers have the same text. -/
theorem mathJsonChars_of_same (a b : Tree α) (ha : a.Unambiguous) (h : a.same b = true) :
    a.mathJsonChars = b.mathJsonChars := by
  match a, b with
  | .number (.integer m), .number (.integer n) =>
    have hmn : (m == n) = true := h
    rw [beq_iff_eq.mp hmn]
  | .number (.float x), _ => exact ha.elim
  | .symbol name, .symbol name' =>
    have hname : (name == name') = true := h
    rw [beq_iff_eq.mp hname]
  | .text value, .text value' =>
    have hvalue : (value == value') = true := h
    rw [beq_iff_eq.mp hvalue]
  | .call label head ops, .call label' head' ops' =>
    rw [same, Bool.and_eq_true, beq_iff_eq] at h
    obtain ⟨rfl, hops⟩ := h
    rw [mathJsonChars, mathJsonChars, mathJsonOperands_of_sameAll ops ops' ha.2 hops]
  | .applied label head ops, .applied label' head' ops' =>
    rw [same, Bool.and_eq_true] at h
    rw [mathJsonChars, mathJsonChars, mathJsonChars_of_same head head' ha.2.1 h.1,
      mathJsonOperands_of_sameAll ops ops' ha.2.2 h.2]

theorem mathJsonOperands_of_sameAll (as bs : List (Tree α)) (ha : AllUnambiguous as)
    (h : sameAll as bs = true) : mathJsonOperands as = mathJsonOperands bs := by
  match as, bs with
  | [], [] => rfl
  | a :: as, b :: bs =>
    rw [sameAll, Bool.and_eq_true] at h
    rw [mathJsonOperands, mathJsonOperands, mathJsonChars_of_same a b ha.1 h.1,
      mathJsonOperands_of_sameAll as bs ha.2 h.2]

end

/-- **The text of an expression determines it.**  Two expressions without floating-point numbers,
    in which no name stands in single quotes and no head is a bare symbol in the place of its name,
    have the same text just if they are equal, whatever characters occur in them. -/
theorem mathJson_eq_iff {a b : Tree α} (ha : a.Unambiguous) (hb : b.Unambiguous) :
    a.mathJson = b.mathJson ↔ (a == b) = true := by
  constructor
  · intro h
    have hchars : a.mathJsonChars ++ [] = b.mathJsonChars ++ [] := by
      rw [String.ofList_injective h]
    exact (mathJsonChars_append_inj a b ha hb endsNumber_nil endsNumber_nil hchars).1
  · intro h
    rw [mathJson, mathJson, mathJsonChars_of_same a b ha h]

/-- A quote and a comma in a name do not make two names of it, and quotes in a string do not make
    it a symbol. -/
theorem mathJson_eq_iff_pair :
    (.call () "f" [.symbol "x\",\"y", .text "'"] : Expr).Unambiguous ∧
    (.call () "f" [.symbol "x", .symbol "y", .text "'"] : Expr).Unambiguous ∧
    (.call () "f" [.symbol "x\",\"y", .text "'"] : Expr).mathJson ≠
      (.call () "f" [.symbol "x", .symbol "y", .text "'"] : Expr).mathJson := by
  have hnames : ∀ name ∈ ["f", "x\",\"y", "x", "y"], ¬ Quoted name := by decide
  have hone : (.call () "f" [.symbol "x\",\"y", .text "'"] : Expr).Unambiguous :=
    ⟨hnames _ (by simp), hnames _ (by simp), trivial, trivial⟩
  have htwo : (.call () "f" [.symbol "x", .symbol "y", .text "'"] : Expr).Unambiguous :=
    ⟨hnames _ (by simp), hnames _ (by simp), hnames _ (by simp), trivial, trivial⟩
  refine ⟨hone, htwo, ?_⟩
  intro h
  have hsame := (mathJson_eq_iff hone htwo).mp h
  exact absurd hsame (by decide)

end Tree

end Formula
