import Formula.Proofs.Reader.Settle
import Formula.Standard

/-!
  **The standard notations and their scripts.**

  The standard notations make up a dictionary, and four scripts read the custom ones among them.

  The scripts build calls of four heads, from what they are given and from what they read.  Three
  of them take any operands; the product of sets is built of two sets only.  A property that is
  kept by these calls is kept by the scripts.
-/

namespace Formula

/-! ### The dictionary -/

theorem all_sound_standardEntries :
    (standardEntries : List (Entry Unit)).all (fun entry => entry.defect?.isNone) = true := by
  decide +kernel

theorem Dictionary.ofEntries_standard :
    ofEntries (standardEntries : List (Entry Unit)) = .ok standard := by
  obtain ⟨d, hd⟩ := exists_ofEntries_of_all all_sound_standardEntries
  rw [hd, standard, hd]

theorem Engine.standard_accepted :
    Dictionary.ofEntries standardEntries = .ok (Engine.standard : Engine Unit).dictionary :=
  Dictionary.ofEntries_standard

/-! ### The scripts -/

/-- The scripts of the standard notations. -/
def Standard.scripts {α : Type} : List (Handler α) :=
  [cartesianProduct, condition, reverseElement, sequence]

namespace Reader

open Standard

/-- The script of a notation that is read by one. -/
def scriptOf? {α : Type} : ParseRule α → Option (Handler α)
  | .custom handler => some handler
  | _ => none

theorem scripts_standardEntries {α : Type} :
    ∀ entry ∈ (standardEntries : List (Entry α)), ∀ handler,
      entry.parse = .custom handler → handler ∈ scripts := by
  have htable : (standardEntries : List (Entry α)).filterMap
      (fun entry => scriptOf? entry.parse) = scripts := rfl
  intro entry hentry handler hparse
  rw [← htable, List.mem_filterMap]
  exact ⟨entry, hentry, by rw [hparse]; rfl⟩

/-! ### What the scripts keep -/

variable {engine : Engine Unit} {Good : Expr → Prop}

/-- The property is kept by the calls that the standard scripts build. -/
structure KeptByScripts (engine : Engine Unit) (Good : Expr → Prop) : Prop where
  elements : ∀ e, Good e → ∀ op ∈ e.ops, Good op
  build : ∀ head ∈ ["Condition", "Element", "Sequence"], ∀ ops, (∀ op ∈ ops, Good op) →
    Good (engine.call head ops)
  product : ∀ a b, Good a → Good b → engine.isCompatible a (.literal .sets) = true →
    engine.isCompatible b (.literal .sets) = true → Good (engine.call "CartesianProduct" [a, b])

namespace KeptByScripts

theorem pair {a b : Expr} (ha : Good a) (hb : Good b) : ∀ op ∈ [a, b], Good op := by
  intro op hop
  simp only [List.mem_cons, List.not_mem_nil, or_false] at hop
  rcases hop with rfl | rfl
  · exact ha
  · exact hb

theorem rejection : ScriptKeeps engine Good (.done none) := by
  rintro e ⟨⟩

theorem finish (kept : KeptByScripts engine Good) {head : String}
    (hhead : head ∈ ["Condition", "Element", "Sequence"]) {ops : List Expr}
    (hops : ∀ op ∈ ops, Good op) : ScriptKeeps engine Good (Standard.finish head ops) := by
  rintro e ⟨rfl⟩
  exact kept.build head hhead ops hops

/-- The product of sets looks at both operands before it is built. -/
theorem cartesianProduct (kept : KeptByScripts engine Good) {lhs : Expr} (hlhs : Good lhs)
    (stop : Terminator) :
    ScriptKeeps engine Good (Standard.cartesianProduct (some lhs) stop) := by
  unfold Standard.cartesianProduct
  dsimp only [ScriptKeeps]
  split
  · rename_i hleft
    rintro (_ | rhs) hrhs
    · exact rejection
    · dsimp only [ScriptKeeps]
      split
      · rename_i hright
        rintro e ⟨rfl⟩
        exact kept.product lhs rhs hlhs (hrhs rhs rfl) hleft hright
      · exact rejection
  · exact rejection

theorem condition (kept : KeptByScripts engine Good) {lhs : Expr} (hlhs : Good lhs)
    (stop : Terminator) : ScriptKeeps engine Good (Standard.condition (some lhs) stop) := by
  rintro (_ | rhs) hrhs
  · exact rejection
  · apply kept.finish (by decide)
    apply pair hlhs
    apply kept.build _ (by decide)
    intro op hop
    rw [List.mem_singleton.mp hop]
    exact hrhs rhs rfl

theorem reverseElement (kept : KeptByScripts engine Good) {lhs : Expr} (hlhs : Good lhs)
    (stop : Terminator) : ScriptKeeps engine Good (Standard.reverseElement (some lhs) stop) := by
  rintro (_ | rhs) hrhs
  · exact rejection
  · exact kept.finish (by decide) (pair (hrhs rhs rfl) hlhs)

/-- The comma takes the elements out of a sequence on its left. -/
theorem sequence (kept : KeptByScripts engine Good) {lhs : Expr} (hlhs : Good lhs)
    (stop : Terminator) : ScriptKeeps engine Good (Standard.sequence (some lhs) stop) := by
  intro rhs hrhs
  apply kept.finish (by decide)
  intro op hop
  rcases List.mem_append.mp hop with hop | hop
  · split at hop
    · exact kept.elements lhs hlhs op hop
    · rw [List.mem_singleton.mp hop]
      exact hlhs
  · exact hrhs op (Option.mem_toList.mp hop)

/-- A standard script keeps the property. -/
theorem script (kept : KeptByScripts engine Good) {handler : Handler Unit}
    (hscript : handler ∈ scripts) (lhs : Option Expr) (stop : Terminator)
    (hlhs : ∀ e, lhs = some e → Good e) : ScriptKeeps engine Good (handler lhs stop) := by
  simp only [scripts, List.mem_cons, List.not_mem_nil, or_false] at hscript
  cases lhs with
  | none => rcases hscript with rfl | rfl | rfl | rfl <;> exact rejection
  | some lhs =>
    have hleft : Good lhs := hlhs lhs rfl
    rcases hscript with rfl | rfl | rfl | rfl
    · exact kept.cartesianProduct hleft stop
    · exact kept.condition hleft stop
    · exact kept.reverseElement hleft stop
    · exact kept.sequence hleft stop

end KeptByScripts

end Reader

end Formula
