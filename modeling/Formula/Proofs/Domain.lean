import Formula.Engine

/-!
  **The domain of a call.**

  The domain of an expression depends on the symbols and functions that the engine knows.  A group
  with one operand has the domain of that operand, any other group that of tuples, and every other
  call that of the values of its function.
-/

namespace Formula.Engine

variable {α : Type} (engine : Engine α)

theorem domain_call (label : α) {head : String} (hgroup : head ≠ "Delimiter")
    (ops : List (Tree α)) : engine.domain (.call label head ops) = engine.functionDomain head := by
  unfold domain
  exact if_neg hgroup

theorem domain_group (label : α) (content : Tree α) :
    engine.domain (.call label "Delimiter" [content]) = engine.domain content := by
  rw [domain, if_pos rfl]

theorem domain_tuple (label : α) {ops : List (Tree α)} (hops : ∀ content, ops ≠ [content]) :
    engine.domain (.call label "Delimiter" ops) = .tuples := by
  unfold domain
  rw [if_pos rfl]
  split
  · exact absurd rfl (hops _)
  · rfl

/-- Engines that know the same symbols and functions agree on domains. -/
theorem domain_congr {engine other : Engine α} (hsymbols : engine.symbols = other.symbols)
    (hfunctions : engine.functions = other.functions) (e : Tree α) :
    engine.domain e = other.domain e := by
  fun_induction Engine.domain other e with
  | case1 value => rw [domain]
  | case2 name => rw [domain, symbolDomain, symbolDomain, hsymbols]
  | case3 value => rw [domain]
  | case4 label content ih => rw [domain_group, ih]
  | case5 label ops hmany => rw [domain_tuple engine label hmany]
  | case6 label head ops hgroup =>
    rw [domain_call engine label hgroup, functionDomain, functionDomain, hfunctions]
  | case7 label head ops => rw [domain]

end Formula.Engine
