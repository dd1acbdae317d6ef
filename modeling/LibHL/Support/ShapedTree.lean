import LibHL.Support.PointerTree

/-!
# Trees whatever their parents

Code that only goes down from a root does not see the parent pointers.  For such code a tree
with a wrong parent pointer is a tree like any other one.
-/

namespace LibHL
namespace PTree

variable {α : Type*} {nodes : Heap (LinkedNode α)} {t u : PTree α} {fs : List (Frame α)}
  {s : Side} {a : Addr} {x : α}

/-- The nodes below a root have the children and the data of a tree, whatever their parents. -/
def Shaped (nodes : Heap (LinkedNode α)) : PTree α → Prop
  | leaf => True
  | node l a x r =>
      (∃ p, nodes a = some ⟨l.addr, r.addr, p, x⟩) ∧ Shaped nodes l ∧ Shaped nodes r

theorem shaped_join : Shaped nodes (join s t u a x) ↔
    (∃ p, nodes a = some (LinkedNode.link s t.addr u.addr p x)) ∧ Shaped nodes t ∧
      Shaped nodes u := by
  cases s
  · exact Iff.rfl
  · exact and_congr_right' and_comm

theorem shaped_of_cells {p : Option Addr} (h : ∀ c ∈ cells p t, nodes c.1 = some c.2) :
    Shaped nodes t := by
  induction t generalizing p with
  | leaf => trivial
  | node l a x r ihl ihr =>
      rw [cells] at h
      refine ⟨⟨p, ?_⟩, ihl (p := some a) ?_, ihr (p := some a) ?_⟩
      · exact h _ (Multiset.mem_add.mpr (Or.inl (Multiset.mem_singleton_self _)))
      · intro c hc
        exact h c (Multiset.mem_add.mpr (Or.inr (Multiset.mem_add.mpr (Or.inl hc))))
      · intro c hc
        exact h c (Multiset.mem_add.mpr (Or.inr (Multiset.mem_add.mpr (Or.inr hc))))

theorem shaped_plug (ht : Shaped nodes t)
    (h : ∀ c ∈ frameCells t.addr fs, nodes c.1 = some c.2) : Shaped nodes (plug t fs) := by
  induction fs generalizing t with
  | nil => exact ht
  | cons f fs ih =>
      rw [frameCells] at h
      have hnode := h _ (Multiset.mem_add.mpr (Or.inl (Multiset.mem_singleton_self _)))
      have hsibling : Shaped nodes f.sibling := by
        refine shaped_of_cells (p := some f.addr) ?_
        intro c hc
        exact h c (Multiset.mem_add.mpr (Or.inr (Multiset.mem_add.mpr (Or.inl hc))))
      refine ih (shaped_join.mpr ⟨⟨_, hnode⟩, ht, hsibling⟩) ?_
      intro c hc
      rw [addr_join] at hc
      exact h c (Multiset.mem_add.mpr (Or.inr (Multiset.mem_add.mpr (Or.inr hc))))

theorem shaped_of_plug (h : Shaped nodes (plug t fs)) : Shaped nodes t := by
  induction fs generalizing t with
  | nil => exact h
  | cons f fs ih => exact (shaped_join.mp (ih h)).2.1

end PTree
end LibHL
