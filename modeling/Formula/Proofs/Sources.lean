import Formula.Proofs.Domain
import Formula.Proofs.Normalize
import Mathlib.Data.List.Forall2

/-!
  **Errors and their sources.**

  An error holds the text that it covers, and nothing that the reader does depends on that text.
  Two expressions are `Alike` if they differ in such texts only: they are then valid together, and
  a valid expression is alike only to itself.  Calls with operands that are alike are alike again,
  since the operands that a call opens are valid ones.
-/

namespace Formula

namespace Tree

/-- The same expression but for the sources of errors in it. -/
inductive Alike : Expr → Expr → Prop where
  | refl (e : Expr) : Alike e e
  | trans {a b c : Expr} (hab : Alike a b) (hbc : Alike b c) : Alike a c
  | source (code : ErrorCode) (argument : Option String) (text text' : String) :
      Alike (errorCall code argument (some text)) (errorCall code argument (some text'))
  | operand (head : String) (before : List Expr) {a b : Expr} (h : Alike a b)
      (after : List Expr) :
      Alike (.call () head (before ++ a :: after)) (.call () head (before ++ b :: after))

namespace Alike

theorem hasHead_eq {a b : Expr} (h : Alike a b) (name : String) :
    a.hasHead name = b.hasHead name := by
  induction h with
  | refl e => rfl
  | trans _ _ ihab ihbc => exact ihab.trans ihbc
  | source code argument text text' => rfl
  | operand head before _ after _ => rfl

theorem valid_eq {a b : Expr} (h : Alike a b) : a.valid = b.valid := by
  induction h with
  | refl e => rfl
  | trans _ _ ihab ihbc => exact ihab.trans ihbc
  | source code argument text text' => rfl
  | operand head before _ after ih =>
    rw [Bool.eq_iff_iff]
    simp only [valid_call, Bool.and_eq_true, allValid_iff, List.forall_mem_append,
      List.forall_mem_cons, ih]

/-- Expressions that are alike differ in errors only. -/
theorem eq_of_valid {a b : Expr} (h : Alike a b) (hvalid : a.valid = true) : a = b := by
  induction h with
  | refl e => rfl
  | trans hab _ ihab ihbc =>
    rw [ihab hvalid]
    exact ihbc (hab.valid_eq ▸ hvalid)
  | source code argument text text' => cases hvalid
  | operand head before _ after ih =>
    rw [valid_call, Bool.and_eq_true, allValid_iff] at hvalid
    rw [ih (hvalid.2 _ (by simp))]

theorem refl_all (es : List Expr) : List.Forall₂ Alike es es :=
  List.forall₂_same.mpr fun e _ => .refl e

theorem trans_all {xs ys zs : List Expr} (hxy : List.Forall₂ Alike xs ys)
    (hyz : List.Forall₂ Alike ys zs) : List.Forall₂ Alike xs zs := by
  induction hxy generalizing zs with
  | nil => exact hyz
  | cons hx _ ih =>
    cases hyz with
    | cons hy hrest => exact .cons (hx.trans hy) (ih hrest)

/-- The operands are alike one by one, but for those of an error. -/
theorem ops {a b : Expr} (h : Alike a b) (herror : a.hasHead "Error" = false) :
    List.Forall₂ Alike a.ops b.ops := by
  induction h with
  | refl e => exact refl_all _
  | trans hab _ ihab ihbc => exact trans_all (ihab herror) (ihbc (hab.hasHead_eq _ ▸ herror))
  | source code argument text text' => cases herror
  | operand head before h after _ =>
    exact List.rel_append (refl_all before) (.cons h (refl_all after))

theorem ops_of_hasHead {a b : Expr} (h : Alike a b) {name : String} (hname : name ≠ "Error")
    (hhead : a.hasHead name = true) : List.Forall₂ Alike a.ops b.ops := by
  apply h.ops
  cases a with
  | call label head ops =>
    have hname' : head = name := eq_of_beq hhead
    simpa [hasHead, hname'] using hname
  | _ => cases hhead

theorem domain_eq (engine : Engine Unit) {a b : Expr} (h : Alike a b) :
    engine.domain a = engine.domain b := by
  induction h with
  | refl e => rfl
  | trans _ _ ihab ihbc => exact ihab.trans ihbc
  | source code argument text text' =>
    unfold errorCall
    rw [engine.domain_call () (by decide), engine.domain_call () (by decide)]
  | @operand head before a b h after ih =>
    by_cases hgroup : head = "Delimiter"
    · subst hgroup
      by_cases hone : before = [] ∧ after = []
      · obtain ⟨rfl, rfl⟩ := hone
        simpa only [List.nil_append, Engine.domain_group] using ih
      · have hmany : ∀ x content, before ++ x :: after ≠ [content] := by
          intro x content heq
          have hlength := congrArg List.length heq
          simp only [List.length_append, List.length_cons, List.length_nil] at hlength
          exact hone ⟨List.eq_nil_of_length_eq_zero (by omega),
            List.eq_nil_of_length_eq_zero (by omega)⟩
        rw [engine.domain_tuple () (hmany a), engine.domain_tuple () (hmany b)]
    · rw [engine.domain_call () hgroup, engine.domain_call () hgroup]

/-! ### Calls with operands that are alike -/

theorem call {head : String} {xs ys : List Expr} (h : List.Forall₂ Alike xs ys) :
    Alike (.call () head xs) (.call () head ys) := by
  -- the operands are exchanged from left to right
  suffices hall : ∀ before : List Expr,
      Alike (.call () head (before ++ xs)) (.call () head (before ++ ys)) from hall []
  induction h with
  | nil => exact fun before => .refl _
  | @cons x y xs ys hxy _ ih =>
    intro before
    have hrest := ih (before ++ [y])
    rw [List.append_assoc, List.append_assoc] at hrest
    exact .trans (.operand head before hxy xs) hrest

/-- What an operand contributes is opened only where it is valid. -/
theorem contribution {f : Expr → List Expr} (hf : ∀ e, e.valid = false → f e = [e]) {a b : Expr}
    (h : Alike a b) : List.Forall₂ Alike (f a) (f b) := by
  cases hvalid : a.valid with
  | true =>
    rw [h.eq_of_valid hvalid]
    exact refl_all _
  | false =>
    rw [hf a hvalid, hf b (h.valid_eq ▸ hvalid)]
    exact .cons h .nil

theorem openedAll {xs ys : List Expr} (h : List.Forall₂ Alike xs ys) :
    List.Forall₂ Alike (openedAll xs) (openedAll ys) := by
  have hopened : ∀ e : Expr, e.valid = false → opened e = [e] := by
    intro e he
    apply opened_of_not_grouping
    rw [isGrouping, he, Bool.false_and]
  induction h with
  | nil => exact .nil
  | cons hxy _ ih => exact List.rel_append (contribution hopened hxy) ih

theorem spreadAll (head : String) {xs ys : List Expr} (h : List.Forall₂ Alike xs ys) :
    List.Forall₂ Alike (spreadAll head xs) (spreadAll head ys) := by
  have hspread : ∀ e : Expr, e.valid = false → spread head e = [e] := by
    intro e he
    apply spread_of_not
    rw [isValidCall, he, Bool.false_and]
  induction h with
  | nil => exact .nil
  | cons hxy _ ih => exact List.rel_append (contribution hspread hxy) ih

/-- The calls that an engine builds of operands that are alike are alike. -/
theorem engine_call (engine : Engine Unit) (head : String) {xs ys : List Expr}
    (h : List.Forall₂ Alike xs ys) : Alike (engine.call head xs) (engine.call head ys) := by
  apply call
  unfold Engine.normalOps
  split
  · exact h
  · split
    · exact spreadAll head (openedAll h)
    · exact openedAll h

end Alike

/-! ### Expressions without sources -/

/-- A text is made empty. -/
def blanked : Expr → Expr
  | .text _ => .text ""
  | e => e

mutual

/-- The expression with the text in every `LatexString` made empty. -/
def withoutSources : Expr → Expr
  | .call label head ops =>
    .call label head
      (if head = "LatexString" then (withoutSourcesAll ops).map blanked
      else withoutSourcesAll ops)
  | .applied label head ops => .applied label head.withoutSources (withoutSourcesAll ops)
  | .number value => .number value
  | .symbol name => .symbol name
  | .text value => .text value

def withoutSourcesAll : List Expr → List Expr
  | [] => []
  | op :: rest => op.withoutSources :: withoutSourcesAll rest

end

theorem withoutSourcesAll_append (xs ys : List Expr) :
    withoutSourcesAll (xs ++ ys) = withoutSourcesAll xs ++ withoutSourcesAll ys := by
  induction xs with
  | nil => rfl
  | cons x xs ih =>
    rw [List.cons_append, withoutSourcesAll, withoutSourcesAll, ih, List.cons_append]

/-- Expressions that are alike are the same without the sources. -/
theorem Alike.withoutSources_eq {a b : Expr} (h : Alike a b) :
    a.withoutSources = b.withoutSources := by
  induction h with
  | refl e => rfl
  | trans _ _ ihab ihbc => exact ihab.trans ihbc
  | source code argument text text' => cases argument <;> rfl
  | operand head before _ after ih =>
    simp only [withoutSources, withoutSourcesAll_append, withoutSourcesAll, ih]

end Tree

end Formula
