import Formula.Proofs.Normalize

/-!
  **What is left when everything is opened.**

  To open an expression is to put what is inside it in its place.  An `Opening` says which
  expressions are opened and what is inside them.  `frontier` opens operands until nothing is left
  to open, from left to right, and `Reaches` says what is met on the way.  Both are stated for any
  rule, so they do not depend on the passes that bring operands into normal form; three rules are
  used for these: `Opening.calls` goes into the calls of one head, `Opening.groups` into
  sequences and groups, and `Opening.bodies` into sequences and the first operands of groups.
-/

namespace Formula

variable {α : Type}

/-- A rule by which expressions are opened. -/
structure Opening (α : Type) where
  opens : Tree α → Bool
  /-- What takes the place of an expression that is opened. -/
  inside : Tree α → List (Tree α)
  smaller : ∀ e, opens e = true → sizeOf (inside e) < sizeOf e

namespace Opening

/-- The expressions that are left when all that can be opened is opened, in order. -/
def frontier (o : Opening α) : List (Tree α) → List (Tree α)
  | [] => []
  | e :: rest =>
    if _h : o.opens e = true then o.frontier (o.inside e) ++ o.frontier rest
    else e :: o.frontier rest
termination_by es => sizeOf es
decreasing_by
  · have := o.smaller e _h
    simp only [List.cons.sizeOf_spec]
    omega
  · simp only [List.cons.sizeOf_spec]
    omega
  · simp only [List.cons.sizeOf_spec]
    omega

/-- The expression is one of the given ones, or is met when these are opened. -/
inductive Reaches (o : Opening α) : List (Tree α) → Tree α → Prop where
  | here {es : List (Tree α)} {x : Tree α} (mem : x ∈ es) : Reaches o es x
  | deeper {es : List (Tree α)} {e x : Tree α} (mem : e ∈ es) (opened : o.opens e = true)
      (within : Reaches o (o.inside e) x) : Reaches o es x

variable {o : Opening α}

/-! ### The expressions that are left -/

@[simp] theorem frontier_nil : o.frontier [] = [] := by rw [frontier]

theorem frontier_cons_of_opens {e : Tree α} (h : o.opens e = true) (rest : List (Tree α)) :
    o.frontier (e :: rest) = o.frontier (o.inside e) ++ o.frontier rest := by
  rw [frontier, dif_pos h]

theorem frontier_cons_of_not {e : Tree α} (h : o.opens e = false) (rest : List (Tree α)) :
    o.frontier (e :: rest) = e :: o.frontier rest := by
  rw [frontier, dif_neg (by simp [h])]

@[simp] theorem frontier_append (xs ys : List (Tree α)) :
    o.frontier (xs ++ ys) = o.frontier xs ++ o.frontier ys := by
  induction xs with
  | nil => simp
  | cons x xs ih =>
    cases h : o.opens x with
    | true => rw [List.cons_append, frontier_cons_of_opens h, frontier_cons_of_opens h, ih,
        List.append_assoc]
    | false => rw [List.cons_append, frontier_cons_of_not h, frontier_cons_of_not h, ih,
        List.cons_append]

/-! ### What is met on the way -/

theorem not_reaches_nil (x : Tree α) : ¬ o.Reaches [] x := by
  intro h
  cases h with
  | here mem => cases mem
  | deeper mem => cases mem

theorem Reaches.mono {es es' : List (Tree α)} (hsub : ∀ e ∈ es, e ∈ es') {x : Tree α}
    (h : o.Reaches es x) : o.Reaches es' x := by
  cases h with
  | here mem => exact .here (hsub _ mem)
  | deeper mem opened within => exact .deeper (hsub _ mem) opened within

theorem reaches_append {xs ys : List (Tree α)} {x : Tree α} :
    o.Reaches (xs ++ ys) x ↔ o.Reaches xs x ∨ o.Reaches ys x := by
  constructor
  · intro h
    cases h with
    | here mem => exact (List.mem_append.mp mem).imp .here .here
    | deeper mem opened within =>
      exact (List.mem_append.mp mem).imp (.deeper · opened within) (.deeper · opened within)
  · rintro (h | h)
    · exact h.mono fun e he => List.mem_append_left ys he
    · exact h.mono fun e he => List.mem_append_right xs he

/-- One expression reaches itself and, if it is opened, what is reached from inside it. -/
theorem reaches_singleton {e x : Tree α} :
    o.Reaches [e] x ↔ x = e ∨ (o.opens e = true ∧ o.Reaches (o.inside e) x) := by
  constructor
  · intro h
    cases h with
    | here mem => exact Or.inl (List.mem_singleton.mp mem)
    | deeper mem opened within =>
      obtain rfl := List.mem_singleton.mp mem
      exact Or.inr ⟨opened, within⟩
  · rintro (rfl | ⟨opened, within⟩)
    · exact .here (List.mem_singleton_self x)
    · exact .deeper (List.mem_singleton_self e) opened within

/-- **What is left is what is reached and not opened.** -/
theorem mem_frontier {es : List (Tree α)} {x : Tree α} :
    x ∈ o.frontier es ↔ o.Reaches es x ∧ o.opens x = false := by
  fun_induction frontier o es with
  | case1 => simp [not_reaches_nil]
  | case2 e rest hopen ihinside ihrest =>
    rw [List.mem_append, ihinside, ihrest, ← List.singleton_append, reaches_append,
      reaches_singleton]
    constructor
    · rintro (⟨hreach, hx⟩ | ⟨hreach, hx⟩)
      · exact ⟨Or.inl (Or.inr ⟨hopen, hreach⟩), hx⟩
      · exact ⟨Or.inr hreach, hx⟩
    · rintro ⟨(rfl | ⟨-, hreach⟩) | hreach, hx⟩
      · rw [hopen] at hx
        cases hx
      · exact Or.inl ⟨hreach, hx⟩
      · exact Or.inr ⟨hreach, hx⟩
  | case3 e rest hopen ihrest =>
    rw [List.mem_cons, ihrest, ← List.singleton_append, reaches_append, reaches_singleton]
    constructor
    · rintro (rfl | ⟨hreach, hx⟩)
      · exact ⟨Or.inl (Or.inl rfl), by simpa using hopen⟩
      · exact ⟨Or.inr hreach, hx⟩
    · rintro ⟨(rfl | ⟨hopens, -⟩) | hreach, hx⟩
      · exact Or.inl rfl
      · exact absurd hopens hopen
      · exact Or.inr ⟨hreach, hx⟩

/-- What is left of something that is reached is left of the whole. -/
theorem Reaches.frontier_subset {es : List (Tree α)} {e x : Tree α} (h : o.Reaches es e)
    (hopen : o.opens e = true) (hx : x ∈ o.frontier (o.inside e)) : x ∈ o.frontier es := by
  obtain ⟨hreach, hleft⟩ := mem_frontier.mp hx
  rw [mem_frontier]
  refine ⟨?_, hleft⟩
  induction h with
  | here mem => exact .deeper mem hopen hreach
  | deeper mem opened _ ih => exact .deeper mem opened (ih hopen hx hreach)

end Opening

end Formula
