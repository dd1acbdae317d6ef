import Mathlib.Data.Int.Init
import Mathlib.Order.Lattice
import Mathlib.Tactic.Common

/-!
# Comparison functions

A comparison function in the style of C returns a negative number, zero or a
positive number.  `Comparator` carries the proofs that it orders its keys as a
total preorder, and `OrderComparator` that it moreover returns zero on equal
keys only.
-/

namespace LibHL

/-- A comparison function that is a total preorder on keys. -/
structure Comparator (K : Type*) where
  cmp : K → K → ℤ
  dual : ∀ a b, 0 ≤ cmp a b ↔ cmp b a ≤ 0
  trans : ∀ a b c, cmp a b ≤ 0 → cmp b c ≤ 0 → cmp a c ≤ 0

/-- A comparison function that is a total order on keys. -/
structure OrderComparator (K : Type*) extends Comparator K where
  eq_of_cmp : ∀ a b, cmp a b = 0 → a = b

namespace Comparator

variable {K : Type*} (c : Comparator K) {a b d : K}

theorem total (a b : K) : c.cmp a b ≤ 0 ∨ c.cmp b a ≤ 0 := by
  rcases Int.le_total (c.cmp a b) 0 with h | h
  · exact Or.inl h
  · exact Or.inr ((c.dual a b).mp h)

theorem refl (a : K) : c.cmp a a ≤ 0 := (c.total a a).elim id id

theorem lt_iff (a b : K) : c.cmp a b < 0 ↔ 0 < c.cmp b a := by
  rw [← Int.not_le, c.dual, Int.not_le]

theorem trans_ge (h₁ : 0 ≤ c.cmp a b) (h₂ : 0 ≤ c.cmp b d) : 0 ≤ c.cmp a d :=
  (c.dual a d).mpr (c.trans d b a ((c.dual b d).mp h₂) ((c.dual a b).mp h₁))

end Comparator

/-- Keys that are told apart by a function into a linear order. -/
def OrderComparator.ofInjective {K L : Type*} [LinearOrder L] (f : K → L)
    (hf : Function.Injective f) : OrderComparator K where
  cmp := fun a b => if f a < f b then -1 else if f b < f a then 1 else 0
  dual := by
    intro a b
    rcases lt_trichotomy (f a) (f b) with h | h | h
    · simp [h, not_lt_of_gt h]
    · simp [h]
    · simp [h, not_lt_of_gt h]
  trans := by
    intro a b c
    have hle : ∀ a b : K, (if f a < f b then (-1 : ℤ) else if f b < f a then 1 else 0) ≤ 0 ↔
        f a ≤ f b := by
      intro a b
      rcases lt_trichotomy (f a) (f b) with h | h | h
      · simp [h, le_of_lt h]
      · simp [h]
      · simp [h, not_lt_of_gt h]
    rw [hle, hle, hle]
    exact le_trans
  eq_of_cmp := by
    intro a b h
    rcases lt_trichotomy (f a) (f b) with hlt | heq | hgt
    · simp [hlt] at h
    · exact hf heq
    · simp [hgt, not_lt_of_gt hgt] at h

/-- Natural numbers under the difference. -/
def natComparator : OrderComparator ℕ where
  cmp := fun a b => (a : ℤ) - b
  dual := by
    intro a b
    omega
  trans := by
    intro a b d
    omega
  eq_of_cmp := by
    intro a b
    omega

end LibHL
