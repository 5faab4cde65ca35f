import Formula.Proofs.Latex.Operators

/-!
  **Letters and whole numbers.**

  A letter is written as it is and a whole number in decimal digits.  Both are read back where no
  notation of the dictionary starts with their characters.
-/

namespace Formula

open Latex Reader

variable {engine : Engine Unit}

/-- No trigger, opening or closing, starts with the token. -/
structure Engine.Free (engine : Engine Unit) (t : Token) : Prop where
  readings : engine.dictionary.readings t = []
  closer : engine.dictionary.isCloser t = false

theorem Engine.free_of_avoids {entries : List (Entry Unit)}
    (hd : Dictionary.Indexed entries engine.dictionary) {t : Token}
    (h : ∀ entry ∈ entries, entry.Avoids t) : engine.Free t := by
  constructor
  · rw [hd.readings_eq, List.flatMap_eq_nil_iff]
    exact fun entry hentry => Entry.readingsAt_eq_nil (h entry hentry).triggers
  · rw [hd.closer_eq, List.any_eq_false]
    exact fun entry hentry => by simp [(h entry hentry).closesWith]

/-! ### Letters -/

theorem toNat_of_isAlpha {c : Char} (h : c.isAlpha = true) :
    (0x41 ≤ c.toNat ∧ c.toNat ≤ 0x5A) ∨ (0x61 ≤ c.toNat ∧ c.toNat ≤ 0x7A) := by
  have hdef : c.isAlpha = (decide (c.val ≥ 'A'.val ∧ c.val ≤ 'Z'.val) ||
      (decide (c.val ≥ 'a'.val) && decide (c.val ≤ 'z'.val))) := rfl
  rw [hdef] at h
  simp only [Bool.or_eq_true, Bool.and_eq_true, decide_eq_true_eq, ge_iff_le,
    UInt32.le_iff_toNat_le] at h
  exact h

theorem isAlphabetic_of_isAlpha {c : Char} (h : c.isAlpha = true) :
    Text.isAlphabetic c = true := by
  have htable : Text.alphabeticRanges =
      (0x41, 0x5A) :: (0x61, 0x7A) :: Text.alphabeticRanges.drop 2 := rfl
  rw [Text.isAlphabetic, htable, Text.inRanges, Text.inRanges]
  rcases toNat_of_isAlpha h with ⟨hlow, hhigh⟩ | ⟨hlow, hhigh⟩
  · rw [if_neg (by omega), decide_eq_true hhigh, Bool.true_or]
  · rw [if_neg (by omega), if_neg (by omega), decide_eq_true hhigh, Bool.true_or, Bool.or_true]

theorem opens_of_free {c : Char} (h : engine.Free (.char c)) (hc : c ≠ '&') :
    Opens engine (.char c) := ⟨rfl, by simpa [isBoundary] using hc, h.closer⟩

theorem code_of_alphabetic {c : Char} (h : Text.isAlphabetic c = true) : 0x41 ≤ c.toNat := by
  have htable : Text.alphabeticRanges = (0x41, 0x5A) :: Text.alphabeticRanges.drop 1 := rfl
  rw [Text.isAlphabetic, htable, Text.inRanges] at h
  by_contra hlow
  rw [if_pos (Nat.lt_of_not_le hlow)] at h
  cases h

/-- The source of a single token. -/
theorem ofTokens_between_token (t : Token) (rest : List Token) :
    ofTokens (between (t :: rest) rest) = t.text := by
  have hbetween : between (t :: rest) rest = [t] := by simp [between]
  rw [hbetween]
  simp [ofTokens, joinChars, nil_append, Token.text]

theorem ofTokens_between_char (c : Char) (rest : List Token) :
    ofTokens (between (.char c :: rest) rest) = String.singleton c := by
  rw [ofTokens_between_token]
  simp [Token.text, Token.toList]

/-- What a letter is read as: a symbol, or an error where no letter is promoted. -/
def Engine.letterValue (engine : Engine Unit) (c : Char) : Expr :=
  match engine.options.promotion with
  | .never =>
    Tree.error (m := Id) (pure ()) .unknownSymbol (some (String.singleton c))
      (some (String.singleton c))
  | _ => .symbol (String.singleton c)

def letterSymbol (c : Char) : Expr := .symbol (String.singleton c)

theorem isCall_letters (letters : List Char) :
    ∀ op ∈ letters.map letterSymbol, op.isCall = false := by
  intro op hop
  obtain ⟨c, -, rfl⟩ := List.mem_map.mp hop
  rfl

theorem Engine.letterValue_eq (hpromotion : engine.options.promotion ≠ .never) (c : Char) :
    engine.letterValue c = .symbol (String.singleton c) := by
  unfold Engine.letterValue
  cases hoption : engine.options.promotion with
  | never => exact absurd hoption hpromotion
  | singleLetter => rfl
  | always => rfl

theorem primary_alphabetic {stop : Terminator} (hstop : Proper engine stop) {c : Char}
    (hc : Text.isAlphabetic c = true) (hfree : engine.Free (.char c)) (rest : List Token) :
    primary engine engine.host (expression engine engine.host) stop (.char c :: rest) =
      pure (some (engine.letterValue c), rest) := by
  have hcode := code_of_alphabetic hc
  have hopens : Opens engine (.char c) := by
    apply opens_of_free hfree
    rintro rfl
    exact absurd hcode (by decide)
  have hdigit : c.isDigit = false := by
    rw [← Bool.not_eq_true, Char.isDigit_iff_toNat]
    intro hdigit
    have hnine : '9'.toNat = 57 := rfl
    omega
  have hletter : letter engine engine.host c (.char c :: rest) =
      pure (engine.letterValue c, rest) := by
    unfold letter Engine.letterValue
    cases engine.options.promotion with
    | never =>
      simp only [List.drop_one, List.tail_cons, errorAt_eq, ofTokens_between_char]
      rfl
    | singleLetter => rfl
    | always => rfl
  apply primary_unclaimed hstop hopens
    (Dictionary.candidates_of_no_readings hfree.readings rest _)
  unfold unclaimed
  simp only [Token.isCommand, Bool.false_eq_true, if_false, hdigit, hc, if_true, hletter]
  rfl

theorem primary_letter {c : Char} (hpromotion : engine.options.promotion ≠ .never)
    (hc : c.isAlpha = true) (hfree : engine.Free (.char c)) :
    Primary engine [.char c] (.symbol (String.singleton c)) := by
  intro stop rest hstop _
  rw [← Engine.letterValue_eq hpromotion]
  exact primary_alphabetic hstop (isAlphabetic_of_isAlpha hc) hfree rest

/-- A letter is read back, unless its name is that of another symbol's notation. -/
theorem readAs_letter {c : Char} (hpromotion : engine.options.promotion ≠ .never)
    (hc : c.isAlpha = true) (hfree : engine.Free (.char c))
    (hname : ∀ entry, engine.dictionary.byName? (String.singleton c) = some entry →
      entry.kind ≠ .symbol) :
    ReadAs engine (.symbol (String.singleton c)) (.symbol (String.singleton c)) := by
  have hlatex : engine.latex (.symbol (String.singleton c)) = String.singleton c := by
    rw [Engine.latex, write, ofSymbol]
    cases hfound : engine.dictionary.byName? (String.singleton c) with
    | none => simp
    | some entry =>
      have hkind := hname entry hfound
      simp [hkind]
  refine ⟨.leaf [.char c] (.symbol (String.singleton c)), ?_, ?_, ?_, ?_, rfl, rfl, rfl, ?_, ?_⟩
  · rw [hlatex]
    simp
  · rw [hlatex, String.toList_singleton]
    exact scans_char (ordinary_of_isAlpha hc)
  · exact plain_of_head rfl []
  · exact primary_letter hpromotion hc hfree
  · rintro p ⟨⟩
  · rintro b ⟨⟩

/-! ### Whole numbers -/

theorem digitsValue_toDigits (n : Nat) : digitsValue (Nat.toDigits 10 n) = n := by
  rw [digitsValue, ← Nat.ofDigitChars_eq_foldl, Nat.ofDigitChars_ten_toDigits]

/-- No digit stands here, and no point with a digit behind it. -/
def Reader.EndsNumeral (rest : List Token) : Prop :=
  rest.head?.any Token.isDigit = false ∧
    ∀ more, rest = .char '.' :: more → more.head?.any Token.isDigit = false

theorem Reader.Apart.endsNumeral {rest : List Token} (h : Apart rest) : EndsNumeral rest := by
  constructor
  · rw [Option.any_eq_false]
    exact fun t ht => Bool.not_eq_true _ ▸ (h t ht).1
  · rintro more rfl
    exact absurd rfl (h _ rfl).2

/-- Digits are read as one numeral where it does not go on behind them. -/
theorem numeral_digits {digits : List Char} (hdigits : ∀ c ∈ digits, c.isDigit = true)
    {rest : List Token} (hends : EndsNumeral rest) :
    numeral (digits.map .char ++ rest) = (wholeNumber digits, rest) := by
  have hall : ∀ t ∈ digits.map Token.char, t.isDigit = true := by
    intro t ht
    obtain ⟨c, hc, rfl⟩ := List.mem_map.mp ht
    exact hdigits c hc
  have hstop : rest.takeWhile Token.isDigit = [] ∧ rest.dropWhile Token.isDigit = rest := by
    cases rest with
    | nil => exact ⟨rfl, rfl⟩
    | cons t rest =>
      have ht : t.isDigit = false := hends.1
      simp [ht]
  have hwhole : digitsOf (digits.map Token.char ++ rest) = digits := by
    rw [digitsOf, List.takeWhile_append_of_pos hall, hstop.1, List.append_nil, List.flatMap_map]
    simp [Token.toList]
  have hafter : (digits.map Token.char ++ rest).dropWhile Token.isDigit = rest := by
    rw [List.dropWhile_append_of_pos hall, hstop.2]
  unfold numeral
  simp only [hwhole, hafter]
  split
  · simp only [hends.2 _ rfl, Bool.false_eq_true, if_false]
  · rfl

/-- Digits are one primary expression where the numeral does not go on behind them. -/
theorem primary_run {digits : List Char} (hne : digits ≠ [])
    (hdigits : ∀ c ∈ digits, c.isDigit = true)
    (hfree : ∀ c : Char, c.isDigit = true → engine.Free (.char c)) {stop : Terminator}
    (hstop : Proper engine stop) {rest : List Token} (hends : EndsNumeral rest) :
    primary engine engine.host (expression engine engine.host) stop (digits.map .char ++ rest) =
      pure (some (.number (wholeNumber digits)), rest) := by
  cases digits with
  | nil => exact absurd rfl hne
  | cons c digits =>
    have hnumeral : numeral (.char c :: (digits.map Token.char ++ rest)) = _ :=
      numeral_digits hdigits hends
    have hc : c.isDigit = true := hdigits c List.mem_cons_self
    have hamp : c ≠ '&' := by
      rintro rfl
      cases hc
    rw [List.map_cons, List.cons_append]
    generalize digits.map Token.char ++ rest = tail at hnumeral
    refine primary_unclaimed hstop (opens_of_free (hfree c hc) hamp)
      (Dictionary.candidates_of_no_readings (hfree c hc).readings tail _) ?_
    unfold unclaimed
    simp only [Token.isCommand, Bool.false_eq_true, if_false, hc, if_true, hnumeral]

theorem primary_digits {digits : List Char} (hne : digits ≠ [])
    (hdigits : ∀ c ∈ digits, c.isDigit = true)
    (hfree : ∀ c : Char, c.isDigit = true → engine.Free (.char c)) :
    Primary engine (digits.map .char) (.number (wholeNumber digits)) :=
  fun _ _ hstop hapart => primary_run hne hdigits hfree hstop hapart.endsNumeral

/-- A whole number that fits is read back. -/
theorem readAs_integer {n : Nat} (hn : n ≤ largestInteger)
    (hfree : ∀ c : Char, c.isDigit = true → engine.Free (.char c)) :
    ReadAs engine (.number (.integer n)) (.number (.integer n)) := by
  have hdigits : ∀ c ∈ Nat.toDigits 10 n, c.isDigit = true := fun c hc =>
    Nat.isDigit_of_mem_toDigits (by decide) (by decide) hc
  have hlatex : (engine.latex (.number (.integer n))).toList = Nat.toDigits 10 n := by
    rw [Engine.latex, write, Latex.ofNumber, String.toList_ofList, MathJson.ofInt,
      if_neg (by omega), Int.natAbs_natCast]
  have hvalue : wholeNumber (Nat.toDigits 10 n) = .integer n := by
    rw [wholeNumber, digitsValue_toDigits]
    exact if_pos hn
  refine ⟨.leaf ((Nat.toDigits 10 n).map .char) (.number (.integer n)), ?_, ?_, ?_, ?_, rfl, rfl,
    rfl, ?_, ?_⟩
  · rw [hlatex]
    exact Nat.toDigits_ne_nil
  · rw [hlatex]
    exact scans_chars fun c hc => ordinary_of_isDigit (hdigits c hc)
  · cases hchars : Nat.toDigits 10 n with
    | nil => exact absurd hchars Nat.toDigits_ne_nil
    | cons c digits => exact plain_of_head rfl _
  · rw [← hvalue]
    exact primary_digits Nat.toDigits_ne_nil hdigits hfree
  · rintro p ⟨⟩
  · rintro b ⟨⟩

end Formula
