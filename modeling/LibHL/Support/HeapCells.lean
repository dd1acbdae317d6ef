import LibHL.Support.LiveCells
import Mathlib.Algebra.Order.Group.Multiset

/-!
# The cells of a heap as a sum of parts

All live cells of a heap, with their addresses, form a bag.  A pointer structure is
described by splitting this bag into the parts that its pieces own.  No cell can
belong to two parts, so a write to a cell of one part leaves the other parts as they
are, and what is left over at the end is what was leaked.
-/

namespace LibHL
namespace Heap

variable {α : Type*} {h : Heap α} {a b : Addr} {v w : α} {s t : Multiset (Addr × α)}

/-- The live cells with their addresses. -/
def cells (h : Heap α) : Multiset (Addr × α) :=
  h.live.val.filterMap fun a => (h a).map (Prod.mk a)

theorem mem_cells : (a, v) ∈ h.cells ↔ h a = some v := by
  rw [cells, Multiset.mem_filterMap]
  constructor
  · rintro ⟨b, -, hb⟩
    obtain ⟨w, hw, heq⟩ := Option.map_eq_some_iff.mp hb
    cases heq
    exact hw
  · intro ha
    exact ⟨a, mem_live_of_eq_some ha, by rw [ha, Option.map_some]⟩

theorem map_fst_cells (h : Heap α) : h.cells.map Prod.fst = h.live.val := by
  rw [cells, Multiset.map_filterMap]
  have hall : ∀ a ∈ h.live.val, ((h a).map (Prod.mk a)).map Prod.fst = some a := by
    intro a ha
    obtain ⟨v, hv⟩ := exists_of_mem_live ha
    rw [hv]
    rfl
  rw [filterMap_congr_of_mem hall, Multiset.filterMap_some]

theorem nodup_cells (h : Heap α) : (h.cells.map Prod.fst).Nodup := by
  rw [map_fst_cells]
  exact h.live.nodup

theorem card_cells_le_brk (h : Heap α) : h.cells.card ≤ h.brk := by
  rw [← Multiset.card_map Prod.fst, map_fst_cells]
  exact h.card_live_le_brk

/-- A heap is described by its cells: whatever has distinct addresses and the cells of
the heap is the bag of its cells. -/
theorem cells_eq_of_mem (hnodup : (s.map Prod.fst).Nodup)
    (hmem : ∀ a v, (a, v) ∈ s ↔ h a = some v) : h.cells = s := by
  have hs : s.Nodup := Multiset.Nodup.of_map _ hnodup
  have hh : h.cells.Nodup := Multiset.Nodup.of_map _ h.nodup_cells
  rw [Multiset.Nodup.ext hh hs]
  rintro ⟨a, v⟩
  rw [mem_cells, hmem]

theorem exists_cells_eq {n : ℕ} (hnodup : (s.map Prod.fst).Nodup) (hlt : ∀ c ∈ s, c.1 < n) :
    ∃ h : Heap α, h.cells = s := by
  have hread : ∀ a, ∃ o : Option α, ∀ v, o = some v ↔ (a, v) ∈ s := by
    intro a
    by_cases hv : ∃ v, (a, v) ∈ s
    · obtain ⟨v, hv⟩ := hv
      refine ⟨some v, fun w => ⟨?_, fun hw => ?_⟩⟩
      · rintro ⟨⟩
        exact hv
      · exact congrArg (some ∘ Prod.snd) (Multiset.inj_on_of_nodup_map hnodup _ hv _ hw rfl)
    · exact ⟨none, fun w => iff_of_false nofun fun hw => hv ⟨w, hw⟩⟩
  choose cell hcell using hread
  refine ⟨⟨cell, n, fun a ha => ?_⟩, cells_eq_of_mem hnodup fun a v => (hcell a v).symm⟩
  by_contra hne
  obtain ⟨v, hv⟩ := Option.ne_none_iff_exists'.mp hne
  exact absurd (hlt _ ((hcell a v).mp hv)) (Nat.not_lt.mpr ha)

/-! ## Reading -/

theorem eq_some_of_cells (hs : h.cells = {(a, v)} + s) : h a = some v := by
  rw [← mem_cells, hs]
  exact Multiset.mem_add.mpr (Or.inl (Multiset.mem_singleton_self _))

theorem ne_of_cells (hs : h.cells = {(a, v)} + s) (hb : (b, w) ∈ s) : b ≠ a := by
  rintro rfl
  have hnodup := h.nodup_cells
  rw [hs, Multiset.map_add, Multiset.map_singleton, Multiset.singleton_add,
    Multiset.nodup_cons] at hnodup
  exact hnodup.1 (Multiset.mem_map.mpr ⟨(b, w), hb, rfl⟩)

/-! ## Writing -/

@[simp] theorem cells_empty : (empty : Heap α).cells = 0 := rfl

theorem cells_alloc (h : Heap α) (v : α) :
    (h.alloc v).1.cells = {(h.brk, v)} + h.cells := by
  refine cells_eq_of_mem ?_ ?_
  · rw [Multiset.map_add, Multiset.map_singleton, map_fst_cells, Multiset.singleton_add,
      Multiset.nodup_cons]
    exact ⟨h.brk_notMem_live, h.live.nodup⟩
  · intro a w
    rw [Multiset.mem_add, Multiset.mem_singleton, mem_cells, alloc_apply, Prod.mk.injEq]
    by_cases ha : a = h.brk
    · subst ha
      rw [if_pos rfl, brk_apply]
      simp [eq_comm]
    · simp [ha]

theorem cells_kill (hs : h.cells = {(a, v)} + s) : (h.kill a).cells = s := by
  have hnodup := h.nodup_cells
  rw [hs, Multiset.map_add, Multiset.map_singleton, Multiset.singleton_add,
    Multiset.nodup_cons] at hnodup
  refine cells_eq_of_mem hnodup.2 ?_
  intro b w
  rw [kill_apply]
  by_cases hb : b = a
  · subst hb
    rw [if_pos rfl]
    refine iff_of_false ?_ nofun
    exact fun hmem => ne_of_cells hs hmem rfl
  · rw [if_neg hb, ← mem_cells, hs, Multiset.mem_add, Multiset.mem_singleton, Prod.mk.injEq]
    simp [hb]

theorem cells_put (hs : h.cells = {(a, v)} + s) (w : α) :
    (h.put a w).cells = {(a, w)} + s := by
  have ha := eq_some_of_cells hs
  have hnodup := h.nodup_cells
  rw [hs, Multiset.map_add, Multiset.map_singleton] at hnodup
  refine cells_eq_of_mem ?_ ?_
  · rw [Multiset.map_add, Multiset.map_singleton]
    exact hnodup
  · intro b u
    rw [Multiset.mem_add, Multiset.mem_singleton, Prod.mk.injEq]
    by_cases hb : b = a
    · subst hb
      rw [put_self ha]
      constructor
      · rintro (⟨-, rfl⟩ | hmem)
        · rfl
        · exact absurd rfl (ne_of_cells hs hmem)
      · intro heq
        cases heq
        exact Or.inl ⟨rfl, rfl⟩
    · rw [put_of_ne hb, ← mem_cells, hs, Multiset.mem_add, Multiset.mem_singleton,
        Prod.mk.injEq]
      simp [hb]

theorem modify_of_cells (f : α → α) (hs : h.cells = {(a, v)} + s) :
    ∃ h', h.modify a f = some h' ∧ h'.cells = {(a, f v)} + s :=
  ⟨_, modify_eq_some f (eq_some_of_cells hs), cells_put hs (f v)⟩

theorem free_of_cells (hs : h.cells = {(a, v)} + s) :
    ∃ h', h.free a = some h' ∧ h'.cells = s :=
  ⟨_, free_eq_some (eq_some_of_cells hs), cells_kill hs⟩

end Heap
end LibHL
