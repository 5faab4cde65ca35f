import Formula.Reader.Skip

/-!
  **Skipping to the token that closes.**

  A group, a block and what stands between `\left` and `\right` are passed over by counting.  The
  reader counts how deep it is inside, one level more at each opening token and one less at each
  closing one, and stops behind the closing token that brings it out.  `skipPaired` is that count
  for any two kinds of tokens.

  Tokens in which openings and closings match leave the count as it is.  So what is passed over
  ends at the closing token that belongs to the opening one, whatever stands inside.
-/

namespace Formula.Reader

/-! ### Matching pairs -/

/-- Openings and closings match: no prefix has more closings, and there are as many of both. -/
structure Paired (opens closes : Token → Bool) (s : List Token) : Prop where
  start : ∀ p, p <+: s → p.countP closes ≤ p.countP opens
  total : s.countP closes = s.countP opens

theorem paired_iff_take {opens closes : Token → Bool} {s : List Token} :
    Paired opens closes s ↔
      (∀ i < s.length + 1, (s.take i).countP closes ≤ (s.take i).countP opens) ∧
        s.countP closes = s.countP opens := by
  constructor
  · intro h
    exact ⟨fun i _ => h.start _ (List.take_prefix i s), h.total⟩
  · rintro ⟨hstart, htotal⟩
    refine ⟨fun p hp => ?_, htotal⟩
    have hlength : p.length < s.length + 1 := Nat.lt_succ_of_le hp.length_le
    have hle := hstart p.length hlength
    rwa [← List.prefix_iff_eq_take.mp hp] at hle

instance (opens closes : Token → Bool) (s : List Token) : Decidable (Paired opens closes s) :=
  decidable_of_iff _ paired_iff_take.symm

/-- What `finish` gives behind the closing token that ends the level `depth` levels further out;
    without such a token it is the end. -/
def skipPaired (opens closes : Token → Bool) (finish : List Token → List Token) :
    Nat → List Token → List Token
  | _, [] => []
  | depth, token :: rest =>
    if opens token then skipPaired opens closes finish (depth + 1) rest
    else if closes token then
      if depth ≤ 1 then finish rest else skipPaired opens closes finish (depth - 1) rest
    else skipPaired opens closes finish depth rest

section

variable {opens closes : Token → Bool} {finish : List Token → List Token} {depth : Nat}
  {s rest : List Token}

/-- Tokens that never close the level that is waited for only change the count. -/
theorem skipPaired_append (hapart : ∀ t, opens t = true → closes t = false)
    (hdeep : ∀ p, p <+: s → p.countP closes < depth + p.countP opens) :
    skipPaired opens closes finish depth (s ++ rest) =
      skipPaired opens closes finish (depth + s.countP opens - s.countP closes) rest := by
  induction s generalizing depth with
  | nil => rfl
  | cons t s ih =>
    have hcons : ∀ p, p <+: s → (t :: p).countP closes < depth + (t :: p).countP opens := by
      intro p hp
      exact hdeep (t :: p) ((List.prefix_cons_inj t).mpr hp)
    rw [List.cons_append, skipPaired]
    by_cases hopens : opens t = true
    · simp only [List.countP_cons, hopens, hapart t hopens, if_true, Bool.false_eq_true,
        if_false] at hcons ⊢
      rw [ih fun p hp => by have := hcons p hp; omega]
      congr 1
      omega
    by_cases hcloses : closes t = true
    · have hdepth : 1 < depth := by
        have := hdeep [t] (by simp)
        simpa [hopens, hcloses] using this
      simp only [List.countP_cons, hopens, hcloses, if_true, Bool.false_eq_true,
        if_false] at hcons ⊢
      rw [if_neg (Nat.not_le.mpr hdepth), ih fun p hp => by have := hcons p hp; omega]
      congr 1
      omega
    · simp only [List.countP_cons, hopens, hcloses, Bool.false_eq_true, if_false,
        Nat.add_zero] at hcons ⊢
      exact ih hcons

/-- **The level ends at the closing token that brings the count out of it.** -/
theorem skipPaired_closed (hapart : ∀ t, opens t = true → closes t = false)
    (hdeep : ∀ p, p <+: s → p.countP closes < depth + p.countP opens)
    (hlevel : depth + s.countP opens = s.countP closes + 1) {close : Token}
    (hclose : closes close = true) :
    skipPaired opens closes finish depth (s ++ close :: rest) = finish rest := by
  have hopens : ¬ opens close = true := by
    intro hopens
    rw [hapart close hopens] at hclose
    cases hclose
  have hlast : depth + s.countP opens - s.countP closes ≤ 1 := by omega
  rw [skipPaired_append hapart hdeep, skipPaired, if_neg hopens, if_pos hclose, if_pos hlast]

/-- Behind tokens that match the next closing token is the one that is waited for. -/
theorem skipPaired_matched (hapart : ∀ t, opens t = true → closes t = false)
    (h : Paired opens closes s) {close : Token} (hclose : closes close = true) :
    skipPaired opens closes finish 1 (s ++ close :: rest) = finish rest := by
  apply skipPaired_closed hapart _ _ hclose
  · intro p hp
    have := h.start p hp
    omega
  · rw [h.total, Nat.add_comm]

theorem skipPaired_suffix (hfinish : ∀ rest, finish rest <:+ rest) (depth : Nat)
    (rest : List Token) : skipPaired opens closes finish depth rest <:+ rest := by
  fun_induction skipPaired opens closes finish depth rest with
  | case1 => exact List.suffix_rfl
  | case2 depth token rest hopens ih => exact ih.trans (List.suffix_cons _ _)
  | case3 depth token rest hopens hcloses hdepth =>
    exact (hfinish rest).trans (List.suffix_cons _ _)
  | case4 depth token rest hopens hcloses hdepth ih => exact ih.trans (List.suffix_cons _ _)
  | case5 depth token rest hopens hcloses ih => exact ih.trans (List.suffix_cons _ _)

end

/-! ### The three counts -/

theorem skipGroup_eq (depth : Nat) (rest : List Token) :
    skipGroup depth rest = skipPaired (· == .groupStart) (· == .groupEnd) id depth rest := by
  fun_induction skipGroup depth rest with
  | case1 => rfl
  | case2 depth rest ih => rw [ih]; rfl
  | case3 depth rest hdepth => simp [skipPaired, hdepth]
  | case4 depth rest hdepth ih => simp [skipPaired, hdepth, ih]
  | case5 depth token rest hopen hclose ih =>
    rw [ih, skipPaired, if_neg fun h => hopen (eq_of_beq h), if_neg fun h => hclose (eq_of_beq h)]

theorem skipEnvironment_eq (depth : Nat) (rest : List Token) :
    skipEnvironment depth rest =
      skipPaired (Token.isCommand "\\begin") (Token.isCommand "\\end")
        (fun rest => (groupText rest).2) depth rest := by
  induction rest generalizing depth with
  | nil => rfl
  | cons token rest ih => simp only [skipEnvironment, skipPaired, ih]

theorem skipLeft_eq (depth : Nat) (rest : List Token) :
    skipLeft depth rest =
      skipPaired (Token.isCommand "\\left") (Token.isCommand "\\right") skipDelimiter depth
        rest := by
  induction rest generalizing depth with
  | nil => rfl
  | cons token rest ih => simp only [skipLeft, skipPaired, ih]

/-- No token opens a group and closes one. -/
theorem braces_apart (t : Token) (h : (t == .groupStart) = true) : (t == .groupEnd) = false := by
  rw [eq_of_beq h]
  rfl

theorem isCommand_apart {name other : String} (hne : name ≠ other) (t : Token)
    (h : t.isCommand name = true) : t.isCommand other = false := by
  cases t with
  | command text =>
    have htext : text = name := beq_iff_eq.mp h
    exact beq_eq_false_iff_ne.mpr (htext ▸ hne)
  | _ => cases h

end Formula.Reader
