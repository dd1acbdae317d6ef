import LibHL.AvlTree.Adding
import LibHL.AvlTree.Removing
import LibHL.Support.Run

/-!
# Runs of the AVL tree

Every call with any comparator ends and leaves a balanced tree, so every run of calls
does.  The order of the keys plays no part in this.
-/

namespace LibHL
namespace AvlTree

open PTree

variable {K V : Type}

/-- The nodes form one tree, with the heights as they should be. -/
structure AvlShape (tree : Avlt K V) (T : PTree (AvltData K V)) : Prop where
  cells : tree.nodes.cells = T.cells none
  root : tree.root = T.addr
  balanced : Balanced T

theorem represents_iff {tree : Avlt K V} {T : PTree (AvltData K V)} :
    Represents tree T ↔ tree.nodes.cells = T.cells none ∧ tree.root = T.addr :=
  at_iff_placed.trans placed_iff

theorem AvlShape.represents {tree : Avlt K V} {T : PTree (AvltData K V)}
    (h : AvlShape tree T) : Represents tree T :=
  represents_iff.mpr ⟨h.cells, h.root⟩

theorem avlShape_of_represents {tree : Avlt K V} {T : PTree (AvltData K V)}
    (h : Represents tree T) (hbal : Balanced T) : AvlShape tree T :=
  ⟨(represents_iff.mp h).1, (represents_iff.mp h).2, hbal⟩

variable (cmp : K → K → ℤ)

theorem avltAdd_keeps_shape {tree : Avlt K V} {T : PTree (AvltData K V)}
    (h : AvlShape tree T) (key : K) (value : Option V) :
    ∃ tree' rc T', avltAdd cmp tree key value = some (tree', rc) ∧ AvlShape tree' T' := by
  by_cases hT : T = .leaf
  · subst hT
    obtain ⟨tree', hrun, hrep⟩ := avltAdd_leaf cmp h.represents key value
    refine ⟨tree', 0, _, hrun, avlShape_of_represents hrep ?_⟩
    exact ⟨trivial, trivial, rfl, rfl, Nat.zero_le _, Nat.zero_le _⟩
  · rcases avltAdd_node cmp h.represents h.balanced hT key value with
      ⟨-, hrun⟩ | ⟨t, fs, tree', T', -, hrun, hrep, hbal, -⟩
    · exact ⟨tree, -1, T, hrun, h⟩
    · exact ⟨tree', 0, T', hrun, avlShape_of_represents hrep hbal⟩

theorem avltRemove_keeps_shape {tree : Avlt K V} {T : PTree (AvltData K V)}
    (h : AvlShape tree T) (key : K) (wantsValue : Bool) :
    ∃ tree' r T', avltRemove cmp tree key wantsValue = some (tree', r) ∧ AvlShape tree' T' := by
  cases hfind : findAt cmp key T [] with
  | none =>
      exact ⟨tree, _, T, avltRemove_absent cmp key h.represents hfind wantsValue, h⟩
  | some p =>
      obtain ⟨t, fs⟩ := p
      obtain ⟨-, l, x, d, r, rfl, -⟩ := findAt_eq_some cmp key T _ _ _ hfind
      obtain ⟨tree', T', hrun, hrep, hbal, -⟩ :=
        avltRemove_present cmp key h.represents h.balanced hfind wantsValue
      exact ⟨tree', _, T', hrun, avlShape_of_represents hrep hbal⟩

theorem stepOp_keeps_shape (tree : Avlt K V) (op : AvltOp K V)
    (h : ∃ T, AvlShape tree T) :
    ∃ tree' o, stepOp cmp tree op = some (tree', o) ∧ ∃ T, AvlShape tree' T := by
  obtain ⟨T, h⟩ := h
  cases op with
  | add key value =>
      obtain ⟨tree', rc, T', hrun, h'⟩ := avltAdd_keeps_shape cmp h key value
      exact ⟨tree', _, by rw [stepOp, hrun]; rfl, T', h'⟩
  | remove key wantsValue =>
      obtain ⟨tree', r, T', hrun, h'⟩ := avltRemove_keeps_shape cmp h key wantsValue
      exact ⟨tree', _, by rw [stepOp, hrun]; rfl, T', h'⟩

/-- Every run of calls ends, with any comparator.  After it the nodes form one tree with
pointers to children and parents that agree, the root is the node without parent, the
stored heights are exact, and they differ by at most one at every node. -/
theorem run_stays_balanced (freeValueCb : Bool) (ops : List (AvltOp K V)) :
    ∃ tree os, runSteps (stepOp cmp) (avltCreate freeValueCb) ops = some (tree, os) ∧
      (∃ T, AvlShape tree T) ∧
      ∀ a n, tree.nodes a = some n → (n.parent = none ↔ tree.root = some a) := by
  have hcreate : ∃ T, AvlShape (avltCreate freeValueCb : Avlt K V) T :=
    ⟨.leaf, avlShape_of_represents (represents_avltCreate freeValueCb) trivial⟩
  obtain ⟨tree, os, hrun, T, h⟩ := runSteps_keeps
    (fun tree op (h : ∃ T, AvlShape tree T) (_ : True) => stepOp_keeps_shape cmp tree op h)
    ops _ hcreate (stepsMeet_of_forall (fun _ _ => trivial) ops _)
  refine ⟨tree, os, hrun, ⟨T, h⟩, ?_⟩
  intro a n ha
  rw [h.root]
  exact parent_eq_none_iff h.cells ha

end AvlTree
end LibHL
