import LibHL.RbTree.Adding
import LibHL.RbTree.TwoChildren

/-!
# Additions that run out of memory

The first two allocations of an addition are looked at, and nothing has happened by then.
Those of the keys that are added again during a repair are not: the grandparent has been
painted red by then and stays so, below whatever colour is above it.
-/

namespace LibHL
namespace RbTree

open LinkedNode PTree RbtData

variable {V : Type} {tree : Rbt V} {T T' : PTree (RbtData V)} {mem : ℕ → Bool}
  {c : Comparator (List UInt8)} {key : List UInt8} {value : Option V} {new : Addr}

/-- A red-black tree of whole keys in their order. -/
structure Valid (c : Comparator (List UInt8)) (tree : Rbt V) (T : PTree (RbtData V)) :
    Prop where
  represents : Represents tree T
  whole : Whole T
  ordered : Ordered c RbtData.key T
  redBlack : RedBlack RbtData.color T

/-- The call leaves a red-black tree, which stores the old entries if -1 is returned, and
besides the new one under its key if not. -/
def AddsOrFails [DecidableEq V] (c : Comparator (List UInt8)) (mem : ℕ → Bool) (tree : Rbt V)
    (T : PTree (RbtData V)) (key : List UInt8) (value : Option V) : Prop :=
  ∃ tree' rc T', rbtAdd c.cmp mem tree key value = some (tree', rc) ∧ Valid c tree' T' ∧
    T'.values.map entry = if rc = -1 then T.values.map entry
      else setKey c Prod.fst (newEntry key value) (T.values.map entry)

/-! ## The colours -/

theorem isSome_rootData (hord : Ordered c RbtData.key T) (key : List UInt8) :
    (place c T key).1.rootData.isSome = (lookup c RbtData.key T.values key).isSome :=
  congrArg Option.isSome (rootData_seek hord key)

/-- A node that takes the place of another one changes no colour. -/
theorem Finishes.redBlack_of_node {l r : PTree (RbtData V)} {y : Addr} {d dn : RbtData V}
    {fs : List (Frame (RbtData V))}
    (h : Finishes mem (withNew new dn (.node l y d r)) fs T')
    (hred : RedBlack RbtData.color (plug (.node l y d r) fs)) : RedBlack RbtData.color T' := by
  obtain ⟨n, hcol, hfs, htop⟩ := redBlack_plug.mp hred
  have hnew : Coloured RbtData.color n (withNew new dn (.node l y d r)) := hcol
  rcases h with ⟨-, rfl⟩ | ⟨hd, hrep⟩
  · exact redBlack_plug.mpr ⟨n, hnew, hfs, htop⟩
  · exact (hrep.redBlack_iff hnew hd hfs).mpr (repairFits_of_black (htop hd))

theorem Finishes.redBlack_iff_of_leaf {fs : List (Frame (RbtData V))}
    (h : Finishes mem (withNew new (newData key value) .leaf) fs T')
    (hred : RedBlack RbtData.color (plug .leaf fs)) :
    RedBlack RbtData.color T' ↔ RepairFits mem fs := by
  obtain ⟨n, hcol, hfs, -⟩ := redBlack_plug.mp hred
  have hnew : Coloured RbtData.color n (withNew new (newData key value) .leaf) :=
    (coloured_join_red (s := .left) rfl).mpr ⟨hcol, hcol, rfl, rfl⟩
  rcases h with ⟨hblack, -⟩ | ⟨hd, hrep⟩
  · cases hblack
  · exact hrep.redBlack_iff hnew hd hfs

/-- When the tree is a red-black tree again. -/
theorem Finishes.redBlack_iff
    (h : Finishes mem (withNew new (newData key value) (place c T key).1) (place c T key).2 T')
    (hord : Ordered c RbtData.key T) (hred : RedBlack RbtData.color T) :
    RedBlack RbtData.color T' ↔
      (lookup c RbtData.key T.values key).isSome ∨ RepairFits mem (place c T key).2 := by
  have hplug : plug (place c T key).1 (place c T key).2 = T := plug_seek T []
  rw [← isSome_rootData hord]
  rw [← hplug] at hred
  cases hplace : (place c T key).1 with
  | leaf =>
      rw [hplace] at h hred
      rw [h.redBlack_iff_of_leaf hred]
      exact (or_iff_right nofun).symm
  | node l y d r =>
      rw [hplace] at h hred
      exact iff_of_true (h.redBlack_of_node hred) (Or.inl rfl)

/-! ## The call -/

theorem addedRc_ne (t : PTree (RbtData V)) : addedRc t ≠ -1 := by
  cases t <;> simp [addedRc]

/-- An addition that has its node. -/
theorem addsOrFails_of_granted [DecidableEq V] (h : Valid c tree T)
    (hmem : mem 0 = true ∧ mem 1 = true) (key : List UInt8) (value : Option V) :
    AddsOrFails c mem tree T key value ↔ (lookup c RbtData.key T.values key).isSome ∨
      RepairFits (fun i => mem (i + 2)) (place c T key).2 := by
  obtain ⟨tree', T', hrun, h', hfinish⟩ :=
    rbtAdd_granted c hmem h.represents h.whole h.ordered key value
  have hentries := hfinish.entries_setKey h.ordered
  rw [← hfinish.redBlack_iff h.ordered h.redBlack]
  constructor
  · rintro ⟨tree₂, rc, T₂, hrun₂, h₂, -⟩
    cases hrun.symm.trans hrun₂
    rw [h'.unique h₂.represents]
    exact h₂.redBlack
  · intro hred
    refine ⟨tree', _, T', hrun, ⟨h', whole_of_setKey hentries h.whole, ?_, hred⟩, ?_⟩
    · rw [ordered_iff_entries, hentries]
      exact ascending_setKey (ordered_iff_entries.mp h.ordered) _
    · rw [if_neg (addedRc_ne _), hentries]

/-- An addition to a red-black tree leaves one exactly if its own allocations are refused, the
key is present, or no repair is given up below a red node or at the root. -/
theorem rbtAdd_addsOrFails_iff [DecidableEq V] (c : Comparator (List UInt8)) (tree : Rbt V)
    (T : PTree (RbtData V)) (h : Valid c tree T) (mem : ℕ → Bool) (key : List UInt8)
    (value : Option V) :
    AddsOrFails c mem tree T key value ↔ mem 0 = false ∨ mem 1 = false ∨
      (lookup c RbtData.key T.values key).isSome ∨
        RepairFits (fun i => mem (i + 2)) (place c T key).2 := by
  by_cases hmem : mem 0 = true ∧ mem 1 = true
  · rw [addsOrFails_of_granted h hmem, hmem.1, hmem.2, or_iff_right Bool.true_eq_false.mp,
      or_iff_right Bool.true_eq_false.mp]
  · obtain ⟨tree', hrun, h'⟩ := rbtAdd_refused c hmem h.represents key value
    refine iff_of_true ⟨tree', -1, T, hrun, ⟨h', h.whole, h.ordered, h.redBlack⟩, rfl⟩ ?_
    rcases Bool.eq_false_or_eq_true (mem 0) with h₀ | h₀
    · exact Or.inr (Or.inl (Bool.eq_false_iff.mpr fun h₁ => hmem ⟨h₀, h₁⟩))
    · exact Or.inl h₀

/-! ## A root with two red children -/

/-- A black root with two red children. -/
def redChildren : PTree (RbtData ℕ) :=
  .node (.node .leaf 1 (keyed .red [3]) .leaf) 0 (keyed .black [5])
    (.node .leaf 2 (keyed .red [9]) .leaf)

/-- The nodes of the tree, for successive addresses. -/
def redChildrenTree : Rbt ℕ :=
  treeOfNodes [⟨some 1, some 2, none, keyed .black [5]⟩, ⟨none, none, some 0, keyed .red [3]⟩,
    ⟨none, none, some 0, keyed .red [9]⟩]

theorem valid_redChildrenTree : Valid lexicographic.toComparator redChildrenTree redChildren where
  represents := by
    have hbrk : (Heap.empty : Heap (RbtNode ℕ)).brk = 0 := rfl
    refine ⟨?_, rfl⟩
    simp only [redChildrenTree, treeOfNodes, List.foldl_cons, List.foldl_nil, Heap.cells_alloc,
      Heap.cells_empty, redChildren, PTree.cells, PTree.addr, Heap.alloc_brk, hbrk, zero_add,
      Nat.reduceAdd, add_zero]
    abel
  whole := by decide
  ordered := by
    unfold Ordered
    decide
  redBlack := by decide

/-- The second allocation is refused, or none is. -/
theorem rbtAdd_addsOrFails_iff_redChildren :
    AddsOrFails lexicographic.toComparator (fun i => i ≠ 1) redChildrenTree redChildren [1]
        (some 1) ∧
      AddsOrFails lexicographic.toComparator (fun _ => true) redChildrenTree redChildren [1]
        (some 1) := by
  have hiff := fun mem => rbtAdd_addsOrFails_iff lexicographic.toComparator redChildrenTree
    redChildren valid_redChildrenTree mem [1] (some 1)
  exact ⟨(hiff _).mpr (Or.inr (Or.inl rfl)),
    (hiff _).mpr (Or.inr (Or.inr (Or.inr (repairFits_of_plenty (fun _ => rfl) _))))⟩

/-- The repair above the new leaf paints the root red; there is no memory for adding its key
again, and the call returns zero. -/
theorem root_left_red :
    ((rbtAdd lexicographic.cmp (fun i => i < 2) redChildrenTree [1] (some 1)).map fun r =>
        (r.2, colorOf r.1.nodes r.1.root)) = some (0, some .red) ∧
      Valid lexicographic.toComparator redChildrenTree redChildren ∧
      ¬ AddsOrFails lexicographic.toComparator (fun i => i < 2) redChildrenTree redChildren [1]
        (some 1) := by
  refine ⟨by decide, valid_redChildrenTree, ?_⟩
  rw [addsOrFails_of_granted valid_redChildrenTree ⟨by decide, by decide⟩]
  rintro (hpresent | hfits)
  · exact absurd hpresent (by decide)
  · have hplace : (place lexicographic.toComparator redChildren [1]).2 =
        [⟨.left, 1, keyed .red [3], .leaf⟩,
          ⟨.left, 0, keyed .black [5], .node .leaf 2 (keyed .red [9]) .leaf⟩] := by
      rfl
    rw [hplace, RepairFits, if_pos ⟨rfl, rfl⟩, if_neg (by decide)] at hfits
    cases hfits

end RbTree
end LibHL
