import Formula.Proofs.Latex.Leaves

/-!
  **Groupings of a chain of operators.**

  A chain is a letter and then, any number of times, an operator and another letter.  A grouping of
  it is a tree with the letters at its leaves and the operators at its nodes, in their order.  It
  respects the precedences if every operator binds its operands no more tightly than these hold
  together.  A chain has at most one such grouping, even if operators of one precedence group to
  different sides.
-/

namespace Formula

open Reader

/-- A way to group a chain. -/
inductive Grouping where
  | letter (c : Char)
  | node (operator : Entry Unit) (lhs rhs : Grouping)

namespace Grouping

/-- Its letters and operators from left to right. -/
def inorder : Grouping → List (Char ⊕ Entry Unit)
  | letter c => [.inl c]
  | node o lhs rhs => lhs.inorder ++ .inr o :: rhs.inorder

def root? : Grouping → Option (Entry Unit)
  | letter _ => none
  | node o _ _ => some o

/-- The expression that is grouped in this way. -/
def expr (engine : Engine Unit) : Grouping → Expr
  | letter c => engine.letterValue c
  | node o lhs rhs => .call () o.headName [lhs.expr engine, rhs.expr engine]

end Grouping

/-- On the left of an operator: one that binds more tightly, or as tightly and not to the right. -/
def Entry.LeftOf (l o : Entry Unit) : Prop :=
  o.precedence < l.precedence ∨ l.precedence = o.precedence ∧ l.associativity ≠ .right

/-- On the right of an operator: one that binds more tightly, or as tightly if the operator groups
    to the right. -/
def Entry.RightOf (r o : Entry Unit) : Prop :=
  o.precedence < r.precedence ∨ r.precedence = o.precedence ∧ o.associativity = .right

/-- Every operator in it has operators on its left and on its right that may stand there. -/
def Grouping.Respects : Grouping → Prop
  | .letter _ => True
  | .node o lhs rhs =>
    lhs.Respects ∧ rhs.Respects ∧
      (∀ l ∈ lhs.root?, l.LeftOf o) ∧ ∀ r ∈ rhs.root?, r.RightOf o

/-! ### The bound of the reader

The reader knows both conditions as one comparison with its bound. -/

theorem leftOf_iff {l o : Entry Unit} : l.LeftOf o ↔ o.precedence < l.sideBound := by
  unfold Entry.LeftOf Entry.sideBound
  cases l.associativity with
  | right => simp
  | left =>
    simp only [reduceCtorEq, ne_eq, not_false_eq_true, and_true]
    omega
  | nonAssociative =>
    simp only [reduceCtorEq, ne_eq, not_false_eq_true, and_true]
    omega

theorem rightOf_iff {r o : Entry Unit} : r.RightOf o ↔ o.sideBound ≤ r.precedence := by
  unfold Entry.RightOf Entry.sideBound
  cases o.associativity with
  | right =>
    simp only [and_true]
    omega
  | left =>
    simp only [reduceCtorEq, and_false, or_false]
    exact Nat.lt_iff_add_one_le
  | nonAssociative =>
    simp only [reduceCtorEq, and_false, or_false]
    exact Nat.lt_iff_add_one_le

namespace Grouping

/-- The bound that the root sets for what stands on its right holds all over that side. -/
theorem Respects.bound {g : Grouping} (hg : g.Respects) {bound : Nat}
    (hroot : ∀ r ∈ g.root?, bound ≤ r.precedence) :
    ∀ x, .inr x ∈ g.inorder → bound ≤ x.precedence := by
  induction g generalizing bound with
  | letter c =>
    intro x hx
    cases List.mem_singleton.mp hx
  | node o lhs rhs ihl ihr =>
    obtain ⟨hlhs, hrhs, hleft, hright⟩ := hg
    have ho : bound ≤ o.precedence := hroot o rfl
    intro x hx
    rcases List.mem_append.mp hx with hx | hx
    · apply ihl hlhs _ x hx
      intro l hl
      have hlo := leftOf_iff.mp (hleft l hl)
      have hupper := l.sideBound_le
      omega
    · rcases List.mem_cons.mp hx with hx | hx
      · cases hx
        exact ho
      · apply ihr hrhs _ x hx
        intro r hr
        have hro := rightOf_iff.mp (hright r hr)
        have hlower := o.precedence_le_sideBound
        omega

/-- An operator that may follow the root may follow all operators in the tree. -/
theorem Respects.follow {g : Grouping} (hg : g.Respects) {bound : Nat}
    (hroot : ∀ l ∈ g.root?, bound < l.sideBound) :
    ∀ x, .inr x ∈ g.inorder → bound < x.sideBound := by
  induction g generalizing bound with
  | letter c =>
    intro x hx
    cases List.mem_singleton.mp hx
  | node o lhs rhs ihl ihr =>
    obtain ⟨hlhs, hrhs, hleft, hright⟩ := hg
    have ho : bound < o.sideBound := hroot o rfl
    intro x hx
    rcases List.mem_append.mp hx with hx | hx
    · apply ihl hlhs _ x hx
      intro l hl
      have hlo := leftOf_iff.mp (hleft l hl)
      have hupper := o.sideBound_le
      omega
    · rcases List.mem_cons.mp hx with hx | hx
      · cases hx
        exact ho
      · have hro := hrhs.bound (fun r hr => rightOf_iff.mp (hright r hr)) x hx
        have hlower := x.precedence_le_sideBound
        omega

section

variable {o o' : Entry Unit} {lhs rhs lhs' rhs' : Grouping}

/-- Of two trees over the same letters and operators neither has its root on the left of the
    other's. -/
theorem nothing_between (hg : (node o lhs rhs).Respects) (hg' : (node o' lhs' rhs').Respects)
    {between : List (Char ⊕ Entry Unit)} (hleft : lhs'.inorder = lhs.inorder ++ between)
    (hright : .inr o :: rhs.inorder = between ++ .inr o' :: rhs'.inorder) : between = [] := by
  cases between with
  | nil => rfl
  | cons x between =>
    obtain ⟨rfl, hrhs⟩ := List.cons.inj hright
    have ho : o'.precedence < o.sideBound := by
      apply hg'.1.follow (fun l hl => leftOf_iff.mp (hg'.2.2.1 l hl))
      rw [hleft]
      simp
    have ho' : o.sideBound ≤ o'.precedence := by
      apply hg.2.1.bound (fun r hr => rightOf_iff.mp (hg.2.2.2 r hr))
      rw [hrhs]
      simp
    omega

theorem same_root (hg : (node o lhs rhs).Respects) (hg' : (node o' lhs' rhs').Respects)
    (horder : (node o lhs rhs).inorder = (node o' lhs' rhs').inorder) :
    lhs.inorder = lhs'.inorder ∧ o = o' ∧ rhs.inorder = rhs'.inorder := by
  rw [inorder, inorder, List.append_eq_append_iff] at horder
  rcases horder with ⟨between, hleft, hright⟩ | ⟨between, hleft, hright⟩
  · obtain rfl := nothing_between hg hg' hleft hright
    obtain ⟨hroot, hrhs⟩ := List.cons.inj hright
    cases hroot
    exact ⟨by rw [hleft, List.append_nil], rfl, hrhs⟩
  · obtain rfl := nothing_between hg' hg hleft hright
    obtain ⟨hroot, hrhs⟩ := List.cons.inj hright
    cases hroot
    exact ⟨by rw [hleft, List.append_nil], rfl, hrhs.symm⟩

end

theorem inorder_ne_nil (g : Grouping) : g.inorder ≠ [] := by
  cases g <;> simp [inorder]

theorem letter_ne_node (c : Char) (o : Entry Unit) (lhs rhs : Grouping) :
    (letter c).inorder ≠ (node o lhs rhs).inorder := by
  intro horder
  have hlength := congrArg List.length horder
  have hleft := List.length_pos_iff.mpr lhs.inorder_ne_nil
  simp only [inorder, List.length_append, List.length_cons, List.length_nil] at hlength
  omega

/-- A chain has only one grouping that respects the precedences. -/
theorem Respects.unique {g g' : Grouping} (hg : g.Respects) (hg' : g'.Respects)
    (horder : g.inorder = g'.inorder) : g = g' := by
  induction g generalizing g' with
  | letter c =>
    cases g' with
    | letter c' =>
      cases horder
      rfl
    | node o' lhs' rhs' => exact absurd horder (letter_ne_node c o' lhs' rhs')
  | node o lhs rhs ihl ihr =>
    cases g' with
    | letter c' => exact absurd horder.symm (letter_ne_node c' o lhs rhs)
    | node o' lhs' rhs' =>
      obtain ⟨hleft, rfl, hright⟩ := same_root hg hg' horder
      rw [ihl hg.1 hg'.1 hleft, ihr hg.2.1 hg'.2.1 hright]

end Grouping

end Formula
