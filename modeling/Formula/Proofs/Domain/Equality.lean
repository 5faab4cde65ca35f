import Formula.Domain
import Mathlib.Data.List.Forall2

/-!
  **Equality of values.**

  Expressions are compared as values and not as trees: the two zeros are equal, and NaN is not equal
  to itself.  So equality is transitive on all expressions, but reflexive only where no number is
  NaN.  The equality of domains is that of the values in them.
-/

namespace Formula

/-! ### Numbers -/

section

open Float.Model (UnpackedFloat)

theorem unpacked_beq_self {x : UnpackedFloat} (h : x.isNaN = false) : x.beq x = true := by
  cases x with
  | infinity s => cases s <;> rfl
  | notANumber => cases h
  | zero s => rfl
  | finite s m e hpos =>
    have hexponent : compare e e = .eq := Std.ReflCmp.compare_self
    have hmantissa : compare m m = .eq := Std.ReflCmp.compare_self
    cases s with
    | positive =>
      show (some ((compare e e).then (compare m m)) == some .eq) = true
      rw [hexponent, hmantissa]
      rfl
    | negative =>
      show (some ((compare e e).then (compare m m)).swap == some .eq) = true
      rw [hexponent, hmantissa]
      rfl

/-- Equal floating-point numbers are the same one, or both are zero. -/
theorem unpacked_beq_cases {x y : UnpackedFloat} (h : x.beq y = true) :
    x = y ∨ (∃ s, x = .zero s) ∧ ∃ s, y = .zero s := by
  have hcompare : x.compare y = some .eq := eq_of_beq h
  cases x with
  | notANumber => cases hcompare
  | infinity s =>
    cases y with
    | infinity t => cases s <;> cases t <;> first | exact Or.inl rfl | cases hcompare
    | _ => cases s <;> cases hcompare
  | zero s =>
    cases y with
    | notANumber => cases hcompare
    | infinity t => cases t <;> cases hcompare
    | zero t => exact Or.inr ⟨⟨s, rfl⟩, t, rfl⟩
    | finite t => cases t <;> cases hcompare
  | finite s m e =>
    cases y with
    | notANumber => cases s <;> cases hcompare
    | infinity t => cases s <;> cases t <;> cases hcompare
    | zero t => cases s <;> cases hcompare
    | finite t m' e' =>
      -- of two numbers of one sign the exponents decide first, then the mantissas
      have hsame : (compare e e').then (compare m m') = .eq → e = e' ∧ m = m' := by
        simp [Ordering.then_eq_eq]
      cases s <;> cases t
      · obtain ⟨rfl, rfl⟩ := hsame (Ordering.swap_eq_eq.mp (Option.some.inj hcompare))
        exact Or.inl rfl
      · cases hcompare
      · cases hcompare
      · obtain ⟨rfl, rfl⟩ := hsame (Option.some.inj hcompare)
        exact Or.inl rfl

theorem unpacked_beq_trans {x y z : UnpackedFloat} (hxy : x.beq y = true)
    (hyz : y.beq z = true) : x.beq z = true := by
  rcases unpacked_beq_cases hxy with rfl | ⟨⟨s, rfl⟩, ⟨t, rfl⟩⟩
  · exact hyz
  · rcases unpacked_beq_cases hyz with rfl | ⟨-, ⟨u, rfl⟩⟩
    · exact hxy
    · rfl

theorem unpacked_beq_symm {x y : UnpackedFloat} (h : x.beq y = true) : y.beq x = true := by
  rcases unpacked_beq_cases h with rfl | ⟨⟨s, rfl⟩, ⟨t, rfl⟩⟩
  · exact h
  · rfl

theorem unpacked_isNaN_of_beq {x y : UnpackedFloat} (h : x.beq y = true) : y.isNaN = false := by
  rcases unpacked_beq_cases h with rfl | ⟨-, ⟨t, rfl⟩⟩
  · cases x with
    | notANumber => cases h
    | _ => rfl
  · rfl

end

namespace Number

def isNaN : Number → Bool
  | .integer _ => false
  | .float x => x.isNaN

theorem same_self {a : Number} (h : a.isNaN = false) : (a == a) = true := by
  cases a with
  | integer n => exact beq_self_eq_true n
  | float x => exact unpacked_beq_self h

theorem same_trans {a b c : Number} (hab : (a == b) = true) (hbc : (b == c) = true) :
    (a == c) = true := by
  cases a with
  | integer n =>
    cases b with
    | integer m =>
      have hnm : n = m := eq_of_beq hab
      rwa [hnm]
    | float y => cases hab
  | float x =>
    cases b with
    | integer m => cases hab
    | float y =>
      cases c with
      | integer k => cases hbc
      | float z => exact unpacked_beq_trans hab hbc

theorem same_symm {a b : Number} (h : (a == b) = true) : (b == a) = true := by
  cases a with
  | integer n =>
    cases b with
    | integer m =>
      have hnm : n = m := eq_of_beq h
      rwa [hnm] at h ⊢
    | float y => cases h
  | float x =>
    cases b with
    | integer m => cases h
    | float y => exact unpacked_beq_symm h

theorem isNaN_of_same {a b : Number} (h : (a == b) = true) : b.isNaN = false := by
  cases a with
  | integer n =>
    cases b with
    | integer m => rfl
    | float y => cases h
  | float x =>
    cases b with
    | integer m => rfl
    | float y => exact unpacked_isNaN_of_beq h

end Number

/-! ### Expressions -/

namespace Tree

variable {α : Type}

mutual

/-- Is there a NaN anywhere in the expression? -/
def hasNaN : Tree α → Bool
  | .number value => value.isNaN
  | .symbol _ => false
  | .text _ => false
  | .call _ _ ops => anyNaN ops
  | .applied _ head ops => head.hasNaN || anyNaN ops

def anyNaN : List (Tree α) → Bool
  | [] => false
  | op :: rest => op.hasNaN || anyNaN rest

end

mutual

theorem same_self {e : Tree α} (h : e.hasNaN = false) : same e e = true := by
  match e with
  | .number value => exact Number.same_self h
  | .symbol name => simp [same]
  | .text value => simp [same]
  | .call label head ops =>
    have hops : anyNaN ops = false := h
    simp [same, sameAll_self hops]
  | .applied label head ops =>
    rw [hasNaN, Bool.or_eq_false_iff] at h
    simp [same, same_self h.1, sameAll_self h.2]

theorem sameAll_self {ops : List (Tree α)} (h : anyNaN ops = false) : sameAll ops ops = true := by
  match ops with
  | [] => rfl
  | op :: rest =>
    rw [anyNaN, Bool.or_eq_false_iff] at h
    simp [sameAll, same_self h.1, sameAll_self h.2]

end

mutual

theorem same_trans {a b c : Tree α} (hab : same a b = true) (hbc : same b c = true) :
    same a c = true := by
  match a, b, c with
  | .number x, .number y, .number z =>
    have hxy : (x == y) = true := by simpa [same] using hab
    have hyz : (y == z) = true := by simpa [same] using hbc
    simpa [same] using Number.same_trans hxy hyz
  | .symbol x, .symbol y, .symbol z => simp_all [same]
  | .text x, .text y, .text z => simp_all [same]
  | .call _ f as, .call _ g bs, .call _ h cs =>
    rw [same, Bool.and_eq_true] at hab hbc ⊢
    have hheads : f = g := eq_of_beq hab.1
    exact ⟨hheads ▸ hbc.1, sameAll_trans hab.2 hbc.2⟩
  | .applied _ f as, .applied _ g bs, .applied _ h cs =>
    rw [same, Bool.and_eq_true] at hab hbc ⊢
    exact ⟨same_trans hab.1 hbc.1, sameAll_trans hab.2 hbc.2⟩

theorem sameAll_trans {as bs cs : List (Tree α)} (hab : sameAll as bs = true)
    (hbc : sameAll bs cs = true) : sameAll as cs = true := by
  match as, bs, cs with
  | [], [], [] => rfl
  | a :: as, b :: bs, c :: cs =>
    rw [sameAll, Bool.and_eq_true] at hab hbc ⊢
    exact ⟨same_trans hab.1 hbc.1, sameAll_trans hab.2 hbc.2⟩

end

mutual

theorem same_symm {a b : Tree α} (h : same a b = true) : same b a = true := by
  match a, b with
  | .number x, .number y =>
    have hxy : (x == y) = true := h
    exact Number.same_symm hxy
  | .symbol x, .symbol y =>
    obtain rfl : x = y := eq_of_beq h
    exact h
  | .text x, .text y =>
    obtain rfl : x = y := eq_of_beq h
    exact h
  | .call _ f as, .call _ g bs =>
    rw [same, Bool.and_eq_true] at h ⊢
    obtain rfl : f = g := eq_of_beq h.1
    exact ⟨h.1, sameAll_symm h.2⟩
  | .applied _ f as, .applied _ g bs =>
    rw [same, Bool.and_eq_true] at h ⊢
    exact ⟨same_symm h.1, sameAll_symm h.2⟩

theorem sameAll_symm {as bs : List (Tree α)} (h : sameAll as bs = true) :
    sameAll bs as = true := by
  match as, bs with
  | [], [] => rfl
  | a :: as, b :: bs =>
    rw [sameAll, Bool.and_eq_true] at h ⊢
    exact ⟨same_symm h.1, sameAll_symm h.2⟩

end

mutual

/-- What is equal to something has no NaN in it. -/
theorem hasNaN_of_same {a b : Tree α} (h : same a b = true) : b.hasNaN = false := by
  match a, b with
  | .number x, .number y => exact Number.isNaN_of_same (a := x) h
  | .symbol _, .symbol _ => rfl
  | .text _, .text _ => rfl
  | .call _ f as, .call _ g bs =>
    rw [same, Bool.and_eq_true] at h
    exact anyNaN_of_sameAll h.2
  | .applied _ f as, .applied _ g bs =>
    rw [same, Bool.and_eq_true] at h
    rw [hasNaN, hasNaN_of_same h.1, anyNaN_of_sameAll h.2]
    rfl

theorem anyNaN_of_sameAll {as bs : List (Tree α)} (h : sameAll as bs = true) :
    anyNaN bs = false := by
  match as, bs with
  | [], [] => rfl
  | a :: as, b :: bs =>
    rw [sameAll, Bool.and_eq_true] at h
    rw [anyNaN, hasNaN_of_same h.1, anyNaN_of_sameAll h.2]
    rfl

end

end Tree

/-! ### Domains -/

namespace Domain

mutual

/-- Is there a NaN in a value that the domain is made of? -/
def hasNaN : Domain → Bool
  | .value e => e.hasNaN
  | .literal _ => false
  | .head _ => false
  | .symbol _ => false
  | .functions ds => anyNaN ds
  | .tuple ds => anyNaN ds
  | .union ds => anyNaN ds
  | .intersection ds => anyNaN ds
  | .list d => d.hasNaN
  | .maybe d => d.hasNaN
  | .sequence d => d.hasNaN
  | .dictionary d => d.hasNaN

def anyNaN : List Domain → Bool
  | [] => false
  | d :: ds => d.hasNaN || anyNaN ds

end

mutual

theorem same_self {d : Domain} (h : d.hasNaN = false) : same d d = true := by
  match d with
  | .value e => exact Tree.same_self h
  | .literal l => simp [same]
  | .head name => simp [same]
  | .symbol name => simp [same]
  | .functions ds => exact sameAll_self h
  | .tuple ds => exact sameAll_self h
  | .union ds => exact sameAll_self h
  | .intersection ds => exact sameAll_self h
  | .list d => exact same_self (d := d) h
  | .maybe d => exact same_self (d := d) h
  | .sequence d => exact same_self (d := d) h
  | .dictionary d => exact same_self (d := d) h

theorem sameAll_self {ds : List Domain} (h : anyNaN ds = false) : sameAll ds ds = true := by
  match ds with
  | [] => rfl
  | d :: ds =>
    rw [anyNaN, Bool.or_eq_false_iff] at h
    simp [sameAll, same_self h.1, sameAll_self h.2]

end

/-- Lists of domains are equal member by member. -/
theorem sameAll_iff {as bs : List Domain} :
    sameAll as bs = true ↔ List.Forall₂ (fun a b => (a == b) = true) as bs := by
  induction as generalizing bs with
  | nil => cases bs <;> simp [sameAll]
  | cons a as ih =>
    cases bs with
    | nil => simp [sameAll]
    | cons b bs =>
      rw [sameAll, Bool.and_eq_true, ih, List.forall₂_cons]
      rfl

theorem exists_same_of_mem {as bs : List Domain} (h : sameAll as bs = true) {a : Domain}
    (ha : a ∈ as) : ∃ b ∈ bs, (a == b) = true := by
  have hpairs := sameAll_iff.mp h
  obtain ⟨i, hi, rfl⟩ := List.getElem_of_mem ha
  have hi' : i < bs.length := hpairs.length_eq ▸ hi
  exact ⟨bs[i], List.getElem_mem hi', hpairs.get hi hi'⟩

theorem exists_mem_same {as bs : List Domain} (h : sameAll as bs = true) {b : Domain}
    (hb : b ∈ bs) : ∃ a ∈ as, (a == b) = true := by
  have hpairs := sameAll_iff.mp h
  obtain ⟨i, hi, rfl⟩ := List.getElem_of_mem hb
  have hi' : i < as.length := hpairs.length_eq ▸ hi
  exact ⟨as[i], List.getElem_mem hi', hpairs.get hi' hi⟩

end Domain

end Formula
