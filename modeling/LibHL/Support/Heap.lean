import Mathlib.Logic.Function.Basic
import Mathlib.Data.Nat.Notation

/-!
# A heap of uniformly shaped cells

Pointer structures are modelled over a store which maps addresses to cells of
one type.  Every address at or above the break is unused, so allocation always
returns an address that no live pointer mentions.  Reading, writing and
releasing are partial: a null or dangling pointer has no result, which is how
undefined behaviour of the source shows in the model.
-/

namespace LibHL

/-- Addresses of heap cells.  A nullable pointer is an `Option Addr`. -/
abbrev Addr := ℕ

/-- A store of cells together with its allocation frontier. -/
structure Heap (α : Type*) where
  cell : Addr → Option α
  brk : ℕ
  unused : ∀ a : ℕ, brk ≤ a → cell a = none

namespace Heap

variable {α : Type*}

instance : CoeFun (Heap α) (fun _ => Addr → Option α) := ⟨Heap.cell⟩

/-- The heap without any allocated cell. -/
def empty : Heap α where
  cell := fun _ => none
  brk := 0
  unused := fun _ _ => rfl

/-- Replace the contents of a live cell.  A dead cell stays dead. -/
def put (h : Heap α) (a : Addr) (v : α) : Heap α where
  cell := fun b => if b = a ∧ (h.cell a).isSome then some v else h.cell b
  brk := h.brk
  unused := by
    intro b hb
    by_cases hba : b = a
    · subst b
      simp [h.unused a hb]
    · simp [hba, h.unused b hb]

/-- Allocate a cell at the frontier. -/
def alloc (h : Heap α) (v : α) : Heap α × Addr :=
  ({ cell := fun b => if b = h.brk then some v else h.cell b
     brk := h.brk + 1
     unused := by
      intro b hb
      have hne : b ≠ h.brk := by omega
      simp [hne, h.unused b (by omega)] }, h.brk)

/-- Update a cell through a pointer; a dangling pointer has no result. -/
def modify (h : Heap α) (a : Addr) (f : α → α) : Option (Heap α) :=
  (h.cell a).map fun v => h.put a (f v)

/-- Kill a cell. -/
def kill (h : Heap α) (a : Addr) : Heap α where
  cell := fun b => if b = a then none else h.cell b
  brk := h.brk
  unused := by
    intro b hb
    simp [h.unused b hb]

/-- Release a live cell; releasing a dead one has no result. -/
def free (h : Heap α) (a : Addr) : Option (Heap α) :=
  (h.cell a).map fun _ => h.kill a

/-- Two heaps in one store: the cells of the second one are moved behind those of the
first one, and `f` adjusts the addresses in them. -/
def beside (h₁ h₂ : Heap α) (f : α → α) : Heap α where
  cell := fun a => if a < h₁.brk then h₁.cell a else (h₂.cell (a - h₁.brk)).map f
  brk := h₁.brk + h₂.brk
  unused := by
    intro a ha
    have hnot : ¬ a < h₁.brk := Nat.not_lt.mpr (Nat.le_trans (Nat.le_add_right _ _) ha)
    rw [if_neg hnot, h₂.unused (a - h₁.brk) (Nat.le_sub_of_add_le' ha)]
    rfl

@[simp] theorem empty_apply (a : Addr) : (empty : Heap α) a = none := rfl

theorem lt_brk_of_eq_some {h : Heap α} {a : Addr} {v : α}
    (ha : h a = some v) : a < h.brk := by
  by_contra hge
  rw [h.unused a (Nat.le_of_not_lt hge)] at ha
  cases ha

@[grind =] theorem put_apply (h : Heap α) (a b : Addr) (v : α) :
    (h.put a v) b = if b = a ∧ (h a).isSome then some v else h b := rfl

@[simp] theorem put_brk (h : Heap α) (a : Addr) (v : α) :
    (h.put a v).brk = h.brk := rfl

theorem put_self {h : Heap α} {a : Addr} {v w : α} (ha : h a = some w) :
    (h.put a v) a = some v := by
  simp [put_apply, ha]

theorem put_of_ne {h : Heap α} {a b : Addr} {v : α} (hne : b ≠ a) :
    (h.put a v) b = h b := by
  simp [put_apply, hne]

theorem put_put (h : Heap α) (a : Addr) (v w : α) : (h.put a v).put a w = h.put a w := by
  simp only [put, Heap.mk.injEq, and_true]
  funext b
  by_cases hb : b = a
  · subst hb
    cases h.cell b <;> simp
  · simp [hb]

theorem put_eq_self {h : Heap α} {a : Addr} {v : α} (ha : h a = some v) : h.put a v = h := by
  cases h with
  | mk cell brk unused =>
      simp only [put, Heap.mk.injEq, and_true]
      funext b
      split
      · next hb =>
          rw [hb.1]
          exact ha.symm
      · rfl

theorem modify_eq_some {h : Heap α} {a : Addr} {v : α} (f : α → α)
    (ha : h a = some v) : h.modify a f = some (h.put a (f v)) := by
  simp [modify, ha]

@[grind =] theorem kill_apply (h : Heap α) (a b : Addr) :
    (h.kill a) b = if b = a then none else h b := rfl

theorem free_eq_some {h : Heap α} {a : Addr} {v : α} (ha : h a = some v) :
    h.free a = some (h.kill a) := by
  simp [free, ha]

@[simp] theorem alloc_snd (h : Heap α) (v : α) : (h.alloc v).2 = h.brk := rfl

@[simp] theorem alloc_brk (h : Heap α) (v : α) :
    (h.alloc v).1.brk = h.brk + 1 := rfl

@[grind =] theorem alloc_apply (h : Heap α) (v : α) (b : Addr) :
    (h.alloc v).1 b = if b = h.brk then some v else h b := rfl

theorem brk_apply (h : Heap α) : h h.brk = none := h.unused _ (Nat.le_refl _)

theorem beside_left {h₁ : Heap α} {a : Addr} (ha : a < h₁.brk) (h₂ : Heap α) (f : α → α) :
    (h₁.beside h₂ f) a = h₁ a :=
  if_pos ha

theorem beside_right (h₁ h₂ : Heap α) (f : α → α) (a : Addr) :
    (h₁.beside h₂ f) (h₁.brk + a) = (h₂ a).map f := by
  have hnot : ¬ h₁.brk + a < h₁.brk := Nat.not_lt.mpr (Nat.le_add_right _ _)
  show (if _ then _ else _) = _
  rw [if_neg hnot, Nat.add_sub_cancel_left]

end Heap
end LibHL
