import Formula.Proofs.Latex.Leaves
import Formula.Proofs.Standard.Scripts

/-!
  **The standard operators.**

  Each operator on numbers is the only notation of its kinds at its first trigger, as long as an
  operand follows: the complements that start with `^` go on with something else.  No notation
  starts with a letter or a digit.
-/

namespace Formula

open Latex Reader

theorem Dictionary.indexed_standard :
    Indexed standardEntries (Engine.standard : Engine Unit).dictionary :=
  indexed_of_ofEntries Engine.standard_accepted

theorem Engine.accepted_standard : (Engine.standard : Engine Unit).Accepted :=
  accepted_of_ofEntries standard_accepted

theorem mem_standardEntries_of_operator {entry : Entry Unit}
    (h : entry ∈ Standard.operatorEntries) : entry ∈ standardEntries := by
  unfold standardEntries Standard.arithmeticEntries
  simp [h]

/-! ### Letters and digits -/

/-- A letter or a digit. -/
def Token.isAlphanum : Token → Bool
  | .char c => c.isAlphanum
  | _ => false

/-- A kind of tokens that no standard notation starts with. -/
theorem avoids_of_kind {kind : Token → Bool}
    (hkind : (standardEntries : List (Entry Unit)).all (fun entry =>
      (entry.matchedTriggers ++ entry.close.toList).all fun trigger =>
        !trigger.tokens.head?.any kind) = true) {t : Token} (ht : kind t = true) :
    ∀ entry ∈ (standardEntries : List (Entry Unit)), entry.Avoids t := by
  intro entry hentry
  have hentry := List.all_eq_true.mp hkind entry hentry
  rw [List.all_append, Bool.and_eq_true] at hentry
  constructor
  · intro trigger htrigger hhead
    have hnone := List.all_eq_true.mp hentry.1 trigger htrigger
    rw [hhead] at hnone
    simp [ht] at hnone
  · intro close hclose hhead
    have hnone := List.all_eq_true.mp hentry.2 close (Option.mem_toList.mpr hclose)
    rw [hhead] at hnone
    simp [ht] at hnone

theorem Engine.free_standard {c : Char} (hc : c.isAlphanum = true) :
    (Engine.standard : Engine Unit).Free (.char c) :=
  Engine.free_of_avoids Dictionary.indexed_standard
    (@avoids_of_kind Token.isAlphanum (by decide +kernel) (.char c) hc)

theorem Engine.free_letter_standard {c : Char} (hc : c.isAlpha = true) :
    (Engine.standard : Engine Unit).Free (.char c) :=
  Engine.free_standard (by rw [Char.isAlphanum, hc, Bool.true_or])

theorem Engine.free_digit_standard {c : Char} (hc : c.isDigit = true) :
    (Engine.standard : Engine Unit).Free (.char c) :=
  Engine.free_standard (by rw [Char.isAlphanum, hc, Bool.or_true])

theorem length_name_standardEntries :
    ∀ entry ∈ (standardEntries : List (Entry Unit)), ∀ name ∈ entry.name,
      name.toList.length ≠ 1 := by
  decide +kernel

theorem readAs_letter_standard {c : Char} (hc : c.isAlpha = true) :
    ReadAs Engine.standard (.symbol (String.singleton c)) (.symbol (String.singleton c)) := by
  refine readAs_letter (by decide) hc (Engine.free_letter_standard hc) ?_
  intro entry hentry
  rw [Dictionary.indexed_standard.name_eq] at hentry
  have hname : entry.name = some (String.singleton c) := by
    simpa using List.find?_some hentry
  have hlength := length_name_standardEntries entry (List.mem_of_find?_eq_some hentry) _ hname
  simp at hlength

theorem readAs_integer_standard {n : Nat} (hn : n ≤ largestInteger) :
    ReadAs Engine.standard (.number (.integer n)) (.number (.integer n)) :=
  readAs_integer hn fun _ => Engine.free_digit_standard

/-! ### Operators -/

/-- A trigger that goes on with what no operand starts with does not match before an operand. -/
theorem matchTokens_plain {t u : Token} {pattern rest : List Token}
    (hu : u.startsOperand = false) (hrest : Plain rest) :
    matchTokens (t :: u :: pattern) (t :: rest) = none := by
  obtain ⟨t', tail, hplain, ht'⟩ := hrest
  have hne : t' ≠ u := by
    rintro rfl
    rw [hu] at ht'
    cases ht'
  rw [matchTokens, if_pos rfl, hplain]
  cases pattern with
  | nil => rw [matchTokens, if_neg hne]
  | cons q pattern => rw [matchTokens, if_neg hne]

/-- Just one notation of the kinds has only the token for a trigger, and the others that start with
    it go on with what no operand starts with. -/
def Sole (entries : List (Entry Unit)) (kinds : List Kind) (t : Token) : Prop :=
  ((readingsOf entries kinds t).map (·.trigger.tokens)).count [t] = 1 ∧
    ∀ r ∈ readingsOf entries kinds t, r.trigger.tokens = [t] ∨
      (r.trigger.tokens.drop 1).head?.any (! Token.startsOperand ·) = true

instance (entries : List (Entry Unit)) (kinds : List Kind) (t : Token) :
    Decidable (Sole entries kinds t) := inferInstanceAs (Decidable (_ ∧ _))

/-- The token neither ends an expression nor goes on with a number. -/
def StartsOperator (entries : List (Entry Unit)) (t : Token) : Prop :=
  isSpacing t = false ∧ isBoundary t = false ∧ entries.any (Entry.closesWith t) = false ∧
    t.isDigit = false ∧ t ≠ .char '.'

instance (entries : List (Entry Unit)) (t : Token) : Decidable (StartsOperator entries t) :=
  inferInstanceAs (Decidable (_ ∧ _))

theorem trigger_operatorEntries :
    ∀ entry ∈ (Standard.operatorEntries : List (Entry Unit)), ∀ trigger ∈ entry.triggers.head?,
      trigger.tokens.length = 1 ∧ ∀ t ∈ trigger.tokens,
        StartsOperator standardEntries t ∧ Sole standardEntries entry.kind.rivals t := by
  decide +kernel

/-- An operator is all that its first trigger may stand for before an operand. -/
theorem only_operatorEntries {entry : Entry Unit} (hentry : entry ∈ Standard.operatorEntries)
    {trigger : Trigger} (hfirst : entry.triggers.head? = some trigger) {rest : List Token}
    (hrest : Plain rest) : Only Engine.standard entry.kind.rivals entry trigger rest := by
  have htable : ∀ entry ∈ (Standard.operatorEntries : List (Entry Unit)),
      entry.kind ≠ .environment ∧ entry.kind ∈ entry.kind.rivals := by decide
  obtain ⟨hkind, hrival⟩ := htable entry hentry
  have hmem : trigger ∈ entry.matchedTriggers := by
    rw [Entry.matchedTriggers, if_neg hkind]
    exact List.mem_of_head? hfirst
  obtain ⟨hlength, hspec⟩ := trigger_operatorEntries entry hentry trigger hfirst
  obtain ⟨t, htokens⟩ := List.length_eq_one_iff.mp hlength
  obtain ⟨⟨hspacing, hboundary, hcloser, hdigit, hpoint⟩, hcount, hothers⟩ :=
    hspec t (by rw [htokens]; exact List.mem_singleton_self t)
  rw [← Dictionary.indexed_standard.closer_eq] at hcloser
  refine Only.of_entries Dictionary.indexed_standard (mem_standardEntries_of_operator hentry) hmem
    htokens ⟨hspacing, hboundary, hcloser⟩ hdigit hpoint hrival ?_ ?_
  · rw [htokens]
    exact hcount
  · intro r hr hne
    obtain ⟨entry', -, hreading⟩ := List.mem_flatMap.mp (mem_readingsOf.mp hr).1
    obtain ⟨-, -, hhead⟩ := Entry.mem_readingsAt hreading
    rw [htokens] at hne ⊢
    rcases hothers r hr with heq | hnext
    · exact absurd heq hne
    · obtain ⟨u, hu, hother⟩ := (Option.any_eq_true _ _).mp hnext
      obtain ⟨tail, htail⟩ := List.head?_eq_some_iff.mp hhead
      rw [htail, List.drop_one, List.tail_cons] at hu
      obtain ⟨pattern, hpattern⟩ := List.head?_eq_some_iff.mp hu
      rw [htail, hpattern]
      exact matchTokens_plain (by simpa using hother) hrest

theorem word_cdot : Word "\\cdot".toList [.command "\\cdot"] :=
  @word_command "cdot".toList (by decide) (List.all_eq_true.mp (by decide))

theorem cdot_tokens : (Trigger.ofLatex "\\cdot").tokens = [.command "\\cdot"] :=
  Trigger.tokens_of_word word_cdot (by simp [Token.isSpace])

theorem word_operatorEntries {entry : Entry Unit} (hentry : entry ∈ Standard.operatorEntries) :
    ∃ trigger, entry.triggers.head? = some trigger ∧
      Word trigger.latex.toList trigger.tokens := by
  have hchar : ∀ c ∈ ['+', '-', '/', '^', '_'], Word [c] [.char c] := by
    intro c hc
    simp only [List.mem_cons, List.not_mem_nil, or_false] at hc
    rcases hc with rfl | rfl | rfl | rfl | rfl <;>
      exact word_char ⟨by decide, by decide, by decide, by decide, by decide⟩ (by decide)
  have hword : ∀ {latex : String} {t : Token}, Word latex.toList [t] → t.isSpace = false →
      Word (Trigger.ofLatex latex).latex.toList (Trigger.ofLatex latex).tokens := by
    intro latex t h hspace
    rw [Trigger.tokens_of_word h (by simpa using hspace)]
    exact h
  simp only [Standard.operatorEntries, List.mem_cons, List.not_mem_nil, or_false] at hentry
  rcases hentry with rfl | rfl | rfl | rfl | rfl | rfl | rfl
  · exact ⟨.ofLatex "+", rfl, hword (hchar '+' (by decide)) rfl⟩
  · exact ⟨.ofLatex "-", rfl, hword (hchar '-' (by decide)) rfl⟩
  · exact ⟨.ofLatex "-", rfl, hword (hchar '-' (by decide)) rfl⟩
  · exact ⟨.ofLatex "\\cdot", rfl, hword word_cdot rfl⟩
  · exact ⟨.ofLatex "/", rfl, hword (hchar '/' (by decide)) rfl⟩
  · exact ⟨.ofLatex "^", rfl, hword (hchar '^' (by decide)) rfl⟩
  · exact ⟨.ofLatex "_", rfl, hword (hchar '_' (by decide)) rfl⟩

theorem named_operatorEntries {entry : Entry Unit} (hentry : entry ∈ Standard.operatorEntries) :
    (Engine.standard : Engine Unit).dictionary.byName? entry.headName = some entry := by
  rw [Dictionary.indexed_standard.name_eq]
  simp only [Standard.operatorEntries, List.mem_cons, List.not_mem_nil, or_false] at hentry
  rcases hentry with rfl | rfl | rfl | rfl | rfl | rfl | rfl <;> rfl

theorem Engine.operator_standard {entry : Entry Unit} (hentry : entry ∈ Standard.operatorEntries) :
    ∃ trigger, Engine.standard.Operator entry.kind entry trigger := by
  obtain ⟨trigger, hfirst, hword⟩ := word_operatorEntries hentry
  have htable : ∀ entry ∈ (Standard.operatorEntries : List (Entry Unit)),
      entry.isCustom = false ∧ entry.head? = some entry.headName ∧ entry.precedence ≤ 65534 ∧
        entry.write = .byKind ∧ entry.headName ∉ ["Error", "Sequence", "Delimiter"] := by decide
  obtain ⟨hrule, hhead, hbounded, hwrite, hnames⟩ := htable entry hentry
  simp only [List.mem_cons, List.not_mem_nil, or_false, not_or] at hnames
  obtain ⟨herror, hsequence, hgroup⟩ := hnames
  exact ⟨trigger, ⟨rfl, hrule, hhead⟩, hbounded, named_operatorEntries hentry, hwrite, hfirst,
    hword, fun rest hrest => only_operatorEntries hentry hfirst hrest, herror, hsequence, hgroup⟩

/-! ### Triggers of several tokens -/

/-- The two differ at a place that both have. -/
def clash : List Token → List Token → Bool
  | p :: ps, t :: ts => t != p || clash ps ts
  | _, _ => false

/-- A trigger does not match where other tokens stand. -/
theorem matchTokens_of_clash {pattern tokens : List Token} (h : clash pattern tokens = true)
    (hspace : ∀ t ∈ tokens, t.isSpace = false) (rest : List Token) :
    matchTokens pattern (tokens ++ rest) = none := by
  induction pattern generalizing tokens with
  | nil => cases h
  | cons p ps ih =>
    cases tokens with
    | nil => cases h
    | cons t ts =>
      have htail : ∀ u ∈ ts, u.isSpace = false := fun u hu => hspace u (List.mem_cons_of_mem t hu)
      by_cases heq : t = p
      · subst heq
        rw [clash, bne_self_eq_false, Bool.false_or] at h
        cases ps with
        | nil => cases h
        | cons q qs =>
          cases ts with
          | nil => cases h
          | cons u us =>
            have hu : u.isSpace = false := htail u List.mem_cons_self
            have hrest := ih h htail
            rw [List.cons_append, matchTokens, if_pos rfl]
            rw [List.cons_append] at hrest ⊢
            rwa [List.dropWhile_cons_of_neg (by simp [hu])]
      · cases ps with
        | nil => rw [List.cons_append, matchTokens, if_neg heq]
        | cons q qs => rw [List.cons_append, matchTokens, if_neg heq]

/-- Just one notation of the kinds has the tokens for a trigger, and every other that starts with
    the first of them goes on with another token. -/
def Alone (entries : List (Entry Unit)) (kinds : List Kind) (t : Token) (tail : List Token) :
    Prop :=
  StartsOperator entries t ∧
    ((readingsOf entries kinds t).map (·.trigger.tokens)).count (t :: tail) = 1 ∧
    ∀ r ∈ readingsOf entries kinds t, r.trigger.tokens = t :: tail ∨
      clash r.trigger.tokens (t :: tail) = true

instance (entries : List (Entry Unit)) (kinds : List Kind) (t : Token) (tail : List Token) :
    Decidable (Alone entries kinds t tail) := inferInstanceAs (Decidable (_ ∧ _ ∧ _))

/-- Parentheses and braces, the comma and the bar before a condition. -/
theorem alone_notations :
    Alone standardEntries [.symbol, .prefixOp, .matchfix] (.command "\\left") [.char '('] ∧
      Alone standardEntries [.symbol, .prefixOp, .matchfix] (.command "\\left")
        [.command "\\lbrace"] ∧
      Alone standardEntries [.infixOp, .postfixOp] (.char ',') [] ∧
      Alone standardEntries [.infixOp, .postfixOp] (.command "\\middle") [.command "\\mid"] := by
  decide +kernel

/-- That one is all that the tokens may stand for. -/
theorem only_of_alone {engine : Engine Unit} {entries : List (Entry Unit)}
    (hd : Dictionary.Indexed entries engine.dictionary) {entry : Entry Unit}
    (hentry : entry ∈ entries) {trigger : Trigger} (htrigger : trigger ∈ entry.matchedTriggers)
    {kinds : List Kind} (hkind : entry.kind ∈ kinds) {t : Token} {tail : List Token}
    (htokens : trigger.tokens = t :: tail) (halone : Alone entries kinds t tail)
    (rest : List Token) : Only engine kinds entry trigger rest := by
  obtain ⟨⟨hspacing, hboundary, hcloser, hdigit, hpoint⟩, hcount, hothers⟩ := halone
  rw [← hd.closer_eq] at hcloser
  rw [← htokens] at hcount hothers
  refine Only.of_entries hd hentry htrigger htokens ⟨hspacing, hboundary, hcloser⟩ hdigit hpoint
    hkind hcount ?_
  intro r hr hne
  rcases hothers r hr with heq | hclash
  · exact absurd heq hne
  · exact matchTokens_of_clash hclash (Trigger.not_isSpace trigger) rest

theorem only_standard {entry : Entry Unit} (hentry : entry ∈ standardEntries) {trigger : Trigger}
    (htrigger : trigger ∈ entry.matchedTriggers) {kinds : List Kind} (hkind : entry.kind ∈ kinds)
    {t : Token} {tail : List Token} (htokens : trigger.tokens = t :: tail)
    (halone : Alone standardEntries kinds t tail) (rest : List Token) :
    Only Engine.standard kinds entry trigger rest :=
  only_of_alone Dictionary.indexed_standard hentry htrigger hkind htokens halone rest

/-! ### Parentheses -/

theorem Engine.parentheses_standard : (Engine.standard : Engine Unit).Parentheses parentheses
    (.ofLatex "\\left(") (.ofLatex "\\right)") := by
  have hmem : parentheses ∈ (standardEntries : List (Entry Unit)) := by
    simp [standardEntries, Standard.arithmeticEntries, Standard.structureEntries, parentheses]
  have hcloser : (standardEntries : List (Entry Unit)).any
      (Entry.closesWith (.command "\\right")) = true := by
    decide +kernel
  rw [← Dictionary.indexed_standard.closer_eq] at hcloser
  refine Engine.parentheses_of_only hcloser ?_
  intro rest
  exact only_standard hmem (List.mem_singleton_self _) (by decide) parentheses_open
    alone_notations.1 rest

end Formula
