import LibHL.Support.PointerTree

/-!
# Level order

A breadth-first traversal keeps the trees that it still has to enter in a queue.  It takes
the first one, and queues the subtrees of its root.
-/

namespace LibHL
namespace PTree

variable {α : Type*}

/-- What the nodes of a queue of trees store, in the order of a breadth-first traversal. -/
def levelOrder : List (PTree α) → List α
  | [] => []
  | leaf :: ts => levelOrder ts
  | node l _ x r :: ts => x :: levelOrder (ts ++ [l, r])
termination_by ts => (ts.map fun t => 2 * t.size + 1).sum
decreasing_by
  all_goals simp [size]
  omega

@[simp] theorem levelOrder_nil : levelOrder ([] : List (PTree α)) = [] := by
  rw [levelOrder]

@[simp] theorem levelOrder_leaf (ts : List (PTree α)) : levelOrder (leaf :: ts) = levelOrder ts := by
  rw [levelOrder]

@[simp] theorem levelOrder_node (l : PTree α) (a : Addr) (x : α) (r : PTree α)
    (ts : List (PTree α)) :
    levelOrder (node l a x r :: ts) = x :: levelOrder (ts ++ [l, r]) := by
  rw [levelOrder]

theorem levelOrder_perm (ts : List (PTree α)) :
    (levelOrder ts).Perm (ts.flatMap values) := by
  induction ts using levelOrder.induct with
  | case1 => rw [levelOrder_nil, List.flatMap_nil]
  | case2 ts ih => rwa [levelOrder_leaf, List.flatMap_cons, values, List.nil_append]
  | case3 l a x r ts ih =>
      rw [List.flatMap_append, List.flatMap_cons, List.flatMap_singleton] at ih
      have hrest := ih.trans List.perm_append_comm
      rw [List.append_assoc] at hrest
      rw [levelOrder_node, List.flatMap_cons, values, List.append_assoc, List.cons_append]
      exact (hrest.cons x).trans List.perm_middle.symm

theorem length_levelOrder (t : PTree α) : (levelOrder [t]).length = t.size := by
  rw [(levelOrder_perm [t]).length_eq, List.flatMap_singleton, length_values]

/-! ## The cells of a queue of trees -/

/-- The cells of the trees of a queue, each of which comes with the parent of its root. -/
def pendingCells (ts : List (Option Addr × PTree α)) : Multiset (Addr × LinkedNode α) :=
  (ts.map fun t => t.2.cells t.1).sum

variable {ts : List (Option Addr × PTree α)} {t : PTree α} {p : Option Addr}

@[simp] theorem pendingCells_nil : pendingCells ([] : List (Option Addr × PTree α)) = 0 := rfl

@[simp] theorem pendingCells_cons : pendingCells ((p, t) :: ts) = t.cells p + pendingCells ts := by
  rw [pendingCells, List.map_cons, List.sum_cons]
  rfl

theorem pendingCells_append (us : List (Option Addr × PTree α)) :
    pendingCells (ts ++ us) = pendingCells ts + pendingCells us := by
  rw [pendingCells, List.map_append, List.sum_append]
  rfl

/-- The roots of a queue of trees. -/
def roots (ts : List (Option Addr × PTree α)) : List Addr := ts.filterMap fun t => t.2.addr

theorem roots_append_leaf : roots (ts ++ [(p, leaf)]) = roots ts := by
  rw [roots, List.filterMap_append]
  exact List.append_nil _

theorem roots_append_node {l r : PTree α} {a : Addr} {x : α} :
    roots (ts ++ [(p, node l a x r)]) = roots ts ++ [a] := by
  rw [roots, List.filterMap_append]
  rfl

theorem mem_pendingCells_of_root {b : Addr} (hb : b ∈ roots ts) :
    ∃ n, (b, n) ∈ pendingCells ts := by
  obtain ⟨⟨p, t⟩, ht, haddr⟩ := List.mem_filterMap.mp hb
  obtain ⟨n, hn⟩ := mem_cells_of_addr haddr p
  obtain ⟨us, vs, rfl⟩ := List.append_of_mem ht
  refine ⟨n, ?_⟩
  rw [pendingCells, List.map_append, List.sum_append, List.map_cons, List.sum_cons,
    Multiset.mem_add, Multiset.mem_add]
  exact Or.inr (Or.inl hn)

/-- A tree beside a queue does not have its root there. -/
theorem notMem_roots {h : Heap (LinkedNode α)} {a : Addr} {rest : Multiset (Addr × LinkedNode α)}
    (hs : h.cells = t.cells p + (pendingCells ts + rest)) (ha : t.addr = some a) :
    a ∉ roots ts := by
  intro hmem
  obtain ⟨n, hn⟩ := mem_pendingCells_of_root hmem
  obtain ⟨u, v, x, rfl⟩ := exists_join .left ha
  rw [cells_join, add_assoc] at hs
  refine Heap.ne_of_cells (w := n) hs ?_ rfl
  exact Multiset.mem_add.mpr (Or.inr (Multiset.mem_add.mpr (Or.inl hn)))

end PTree
end LibHL
