import LibHL.RbTree.Removing
import LibHL.Comparators.DefaultKeys

/-!
# When the removal of an inner node is right

A node with two children is removed rightly if its neighbour has a key of the same length,
and has no child that would get a wrong parent.  In all other cases either an entry with a
wrong length or a wrong parent pointer is left behind.
-/

namespace LibHL
namespace RbTree

open LinkedNode PTree RbtData

variable {V : Type} {tree : Rbt V} {nodes : Heap (RbtNode V)} {s : Side}
  {t u v T : PTree (RbtData V)} {fs path : List (Frame (RbtData V))} {x y : Addr}
  {d e : RbtData V}

/-! ## What is asked, and the condition -/

/-- The entry of a node goes away and all others stay, in a tree with consistent links. -/
def RemovesEntry (cmp : List UInt8 → List UInt8 → ℤ) (mem : Bool) (tree : Rbt V)
    (key : List UInt8) (wantsValue : Bool) (T : PTree (RbtData V)) (d : RbtData V) : Prop :=
  ∃ tree' answer T', rbtRemove cmp mem tree key wantsValue = some (tree', answer) ∧
    Represents tree' T' ∧ Without d.entry (T.values.map entry) (T'.values.map entry)

/-- The neighbour of a node, the last one in the subtree `t` towards the node, has a key of
the same length; it is the root of `t`, or has no child. -/
def NeighbourFits (s : Side) (t : PTree (RbtData V)) (d : RbtData V) : Prop :=
  ∀ e v, t.last s.other = some (e, v) →
    e.klen = d.klen ∧ (t.sub s.other = .leaf ∨ v = .leaf)

theorem neighbourFits_plug (hside : ∀ f ∈ path, f.side = s.other) :
    NeighbourFits s (plug (join s.other .leaf v y e) path) d ↔
      e.klen = d.klen ∧ (path = [] ∨ v = .leaf) := by
  rw [NeighbourFits, last_plug_join hside, sub_plug_eq_leaf hside]
  constructor
  · exact fun h => h e v rfl
  · intro h e' v' heq
    cases heq
    exact h

/-! ## The entries -/

/-- The node as it should be: it stores what the neighbour stored. -/
theorem without_moved {d' : RbtData V} (hside : ∀ f ∈ path, f.side = s.other)
    (hd' : d'.entry = e.entry) (fs : List (Frame (RbtData V))) :
    Without d.entry
      ((plug (join s (plug (join s.other .leaf v y e) path) u x d) fs).values.map entry)
      ((plug v (path ++ ⟨s, x, d', u⟩ :: fs)).values.map entry) := by
  obtain ⟨A, B, hAB⟩ := exists_values_plug fs
  rw [plug_append, plug, hAB, hAB]
  simp only [List.map_append]
  exact (without_neighbour entry hside hd').around _ _

/-- What the cells of the tree store, whatever their links. -/
theorem bag_of_cells {p : Option Addr} (h : Represents tree T)
    (hcells : tree.nodes.cells = v.cells p + frameCells v.addr fs) :
    T.bag entry = (plug v fs).bag entry := by
  rw [← map_cells entry T none, ← h.cells, hcells, Multiset.map_add, map_cells, map_frameCells,
    bag_plug]

/-- Only with an equal length is the old entry the only one that is missing. -/
theorem klen_eq_of_without (hside : ∀ f ∈ path, f.side = s.other)
    (hbag : T.bag entry = (plug v (path ++ ⟨s, x, takeOver d e, u⟩ :: fs)).bag entry)
    (hwithout : Without d.entry
      ((plug (join s (plug (join s.other .leaf v y e) path) u x d) fs).values.map entry)
      (T.values.map entry)) : e.klen = d.klen := by
  have hmoved : Without d.entry _ _ := without_moved (u := u) (x := x) (d := d) (y := y)
    (v := v) hside (rfl : e.entry = e.entry) fs
  have hsame : (plug v (path ++ ⟨s, x, e, u⟩ :: fs)).bag entry =
      (plug v (path ++ ⟨s, x, takeOver d e, u⟩ :: fs)).bag entry := by
    have hcons := hmoved.coe_eq.symm.trans hwithout.coe_eq
    exact ((Multiset.cons_inj_right _).mp hcons).trans hbag
  rw [plug_append, plug_append, plug, plug, bag_plug, bag_plug, bag_join, bag_join] at hsame
  have hentry := Multiset.singleton_inj.mp (add_right_cancel (add_right_cancel hsame))
  exact congrArg (fun c => c.2.1) hentry

/-! ## The links -/

/-- A child of the neighbour gets a wrong parent, unless the neighbour was a child of the
node. -/
theorem path_eq_nil_of_links (h : Represents tree T)
    (hcells : tree.nodes.cells =
      v.cells (some x) + frameCells v.addr (path ++ ⟨s, x, d, u⟩ :: fs)) :
    path = [] ∨ v = .leaf := by
  by_contra hnot
  obtain ⟨hpath, hv⟩ := not_or.mp hnot
  obtain ⟨z, hz⟩ := Option.ne_none_iff_exists'.mp fun haddr => hv (addr_eq_none haddr)
  obtain ⟨g, path, rfl⟩ := List.exists_cons_of_ne_nil hpath
  obtain ⟨vl, vr, dz, rfl⟩ := exists_join .left hz
  rw [PTree.cells_join, add_assoc, addr_join] at hcells
  -- the cell of the child names the node as its parent
  have hmem : (z, link .left vl.addr vr.addr (some x) dz) ∈ T.cells none := by
    rw [← h.cells, hcells]
    exact Multiset.mem_add.mpr (Or.inl (Multiset.mem_singleton_self _))
  rcases child_of_mem_cells hmem with ⟨-, hparent⟩ | ⟨b, m, hparent, hb, hchild⟩
  · cases hparent
  · cases hparent
    rw [← h.cells, Heap.mem_cells] at hb
    have hx := mem_frameCells (some z) (g :: path) ⟨s, x, d, u⟩ fs
    have hx' : tree.nodes x = some m := hb
    have hread : tree.nodes x = some (link s (rootOf (some z) (g :: path)) u.addr
        (parentOf fs) d) := by
      rw [← Heap.mem_cells, hcells]
      exact Multiset.mem_add.mpr (Or.inr (Multiset.mem_add.mpr (Or.inr hx)))
    obtain rfl := Option.some.inj (hx'.symm.trans hread)
    have hframes : ∀ {b : Addr} {n : RbtNode V},
        (b, n) ∈ frameCells (some z) (g :: path ++ ⟨s, x, d, u⟩ :: fs) → b ≠ z :=
      fun hcell => Heap.ne_of_cells hcells (Multiset.mem_add.mpr (Or.inr hcell))
    have hroot : rootOf (some z) (g :: path) ≠ some z := by
      obtain ⟨b, n, hroot, hcell⟩ :=
        exists_mem_frameCells_root (some z) g path (⟨s, x, d, u⟩ :: fs)
      rw [hroot]
      exact fun heq => hframes hcell (Option.some.inj heq)
    have hsibling : u.addr ≠ some z := by
      intro heq
      obtain ⟨n, hn⟩ := mem_cells_of_addr heq (some x)
      have hcell : (z, n) ∈ frameCells (some z) (g :: path ++ ⟨s, x, d, u⟩ :: fs) :=
        mem_frameCells_sibling hn
      exact hframes hcell rfl
    cases s
    · exact hchild.elim hroot hsibling
    · exact hchild.elim hsibling hroot

/-! ## The removal -/

theorem represents_handOver {wantsValue : Bool} {value : Option V} :
    Represents (handOver tree wantsValue value).1 T ↔ Represents tree T := by
  obtain ⟨hnodes, hroot⟩ := handOver_fields tree wantsValue value
  constructor
  · exact fun h => ⟨hnodes ▸ h.1, hroot ▸ h.2⟩
  · exact fun h => ⟨hnodes ▸ h.1, hroot ▸ h.2⟩

/-- The removal of a node with two children is right exactly if the neighbour fits. -/
theorem removeInner_iff (h : Represents tree (plug (join s t u x d) fs))
    (hs : neighbourSide tree.prevnext = s) (hwhole : Whole t) (ht : t ≠ .leaf)
    (wantsValue : Bool) :
    (∃ tree' answer T', removeInner true tree x wantsValue = some (tree', answer) ∧
      Represents tree' T' ∧
      Without d.entry ((plug (join s t u x d) fs).values.map entry) (T'.values.map entry)) ↔
      NeighbourFits s t d := by
  have hplaced := represents_plug.mp h
  obtain ⟨y, v, e, path, hnear, rfl, hside⟩ := findNear_spec hplaced ht
  have hlen : e.key.length = e.klen := (whole_join.mp (whole_plug hwhole)).2.1
  obtain ⟨nodes', hrun, hcells⟩ := removeInner_spec hplaced hs hnear rfl hside hlen wantsValue
  rw [add_zero] at hcells
  rw [neighbourFits_plug hside]
  constructor
  · rintro ⟨tree', answer, T', hrun', h', hwithout⟩
    rw [hrun] at hrun'
    obtain rfl := congrArg Prod.fst (Option.some.inj hrun')
    have h₁ := represents_handOver.mp h'
    exact ⟨klen_eq_of_without hside (bag_of_cells h₁ hcells) hwithout,
      path_eq_nil_of_links h₁ hcells⟩
  · rintro ⟨hklen, hlinks⟩
    have hparent : v.cells (some x) =
        v.cells (parentOf (path ++ ⟨s, x, takeOver d e, u⟩ :: fs)) := by
      rcases hlinks with rfl | rfl
      · rfl
      · rfl
    have hentry : (takeOver d e).entry = e.entry := by
      rw [takeOver, entry, entry, hklen]
    refine ⟨_, _, plug v (path ++ ⟨s, x, takeOver d e, u⟩ :: fs), hrun, ?_,
      without_moved hside hentry fs⟩
    refine represents_handOver.mpr ⟨?_, ?_⟩
    · rw [cells_plug, ← hparent]
      exact hcells
    · rw [addr_plug, rootOf_append, rootOf, ← addr_join s _ u x d, ← addr_plug]
      exact h.root_eq

theorem removeInner_no_memory (h : Represents tree (plug (join s t u x d) fs))
    (hs : neighbourSide tree.prevnext = s) (ht : t ≠ .leaf) (wantsValue : Bool) :
    removeInner false tree x wantsValue =
      some ({ tree with prevnext := tree.prevnext + 1 }, ⟨-1, none⟩) := by
  have hplaced := represents_plug.mp h
  obtain ⟨y, v, e, path, hnear, -, -⟩ := findNear_spec hplaced ht
  have hx := hplaced.node_eq
  simp [removeInner, hs, hx, hnear]

theorem not_without_self (h : Represents tree T) {tree' : Rbt V} {T' : PTree (RbtData V)}
    (h' : Represents tree' T') (hnodes : tree'.nodes = tree.nodes) :
    ¬ Without d.entry (T.values.map entry) (T'.values.map entry) := by
  intro hwithout
  have hbag : T'.bag entry = T.bag entry := by
    rw [← map_cells entry T' none, ← map_cells entry T none, ← h'.cells, ← h.cells, hnodes]
  have hcons : T.bag entry = d.entry ::ₘ T'.bag entry := hwithout.coe_eq
  have hcard := congrArg Multiset.card hcons
  rw [hbag, Multiset.card_cons] at hcard
  exact Nat.succ_ne_self _ hcard.symm

theorem rbtRemove_of_two_children (c : Comparator (List UInt8)) {l r : PTree (RbtData V)}
    (h : Represents tree (plug (.node l x d r) fs)) (hwhole : Whole (plug (.node l x d r) fs))
    (hord : Ordered c RbtData.key (plug (.node l x d r) fs)) (hl : l ≠ .leaf) (hr : r ≠ .leaf)
    {key : List UInt8} (hkey : c.cmp d.key key = 0) (mem wantsValue : Bool) :
    rbtRemove c.cmp mem tree key wantsValue = removeInner mem tree x wantsValue := by
  have hl' := Option.isSome_iff_ne_none.mpr fun haddr => hl (addr_eq_none haddr)
  have hr' := Option.isSome_iff_ne_none.mpr fun haddr => hr (addr_eq_none haddr)
  rw [rbtRemove_found c h hwhole hord hkey, if_pos ⟨hl', hr'⟩]

theorem ne_leaf_of_sides {l r : PTree (RbtData V)} (hl : l ≠ .leaf) (hr : r ≠ .leaf)
    (hjoin : PTree.node l x d r = join s t u x d) : t ≠ .leaf := by
  cases s
  · cases hjoin
    exact hl
  · cases hjoin
    exact hr

/-- With memory for the key, only the neighbour matters. -/
theorem removesEntry_iff_fits (c : Comparator (List UInt8)) {l r : PTree (RbtData V)}
    (h : Represents tree (plug (.node l x d r) fs)) (hwhole : Whole (plug (.node l x d r) fs))
    (hord : Ordered c RbtData.key (plug (.node l x d r) fs)) (hl : l ≠ .leaf) (hr : r ≠ .leaf)
    {key : List UInt8} (hkey : c.cmp d.key key = 0) (hs : neighbourSide tree.prevnext = s)
    (hjoin : PTree.node l x d r = join s t u x d) (wantsValue : Bool) :
    RemovesEntry c.cmp true tree key wantsValue (plug (.node l x d r) fs) d ↔
      NeighbourFits s t d := by
  have ht := ne_leaf_of_sides hl hr hjoin
  rw [RemovesEntry, rbtRemove_of_two_children c h hwhole hord hl hr hkey]
  rw [hjoin] at h hwhole ⊢
  exact removeInner_iff h hs (whole_join.mp (whole_plug hwhole)).1 ht wantsValue

/-- The key of a node with two children is removed rightly exactly if memory can be had for
the key of the neighbour, the two keys have equal lengths, and the neighbour is a child of
the node or has no child itself. -/
theorem rbtRemove_removesEntry_iff (c : Comparator (List UInt8)) (tree : Rbt V)
    (l r : PTree (RbtData V)) (x : Addr) (d : RbtData V) (fs : List (Frame (RbtData V)))
    (h : Represents tree (plug (.node l x d r) fs)) (hwhole : Whole (plug (.node l x d r) fs))
    (hord : Ordered c RbtData.key (plug (.node l x d r) fs)) (hl : l ≠ .leaf) (hr : r ≠ .leaf)
    (key : List UInt8) (hkey : c.cmp d.key key = 0) (mem wantsValue : Bool) :
    RemovesEntry c.cmp mem tree key wantsValue (plug (.node l x d r) fs) d ↔
      mem = true ∧ NeighbourFits (neighbourSide tree.prevnext)
        ((PTree.node l x d r).sub (neighbourSide tree.prevnext)) d := by
  obtain ⟨s, hs⟩ : ∃ s, neighbourSide tree.prevnext = s := ⟨_, rfl⟩
  obtain ⟨t, u, hjoin⟩ := node_eq_join l x d r s
  cases mem with
  | true =>
      rw [removesEntry_iff_fits c h hwhole hord hl hr hkey hs hjoin wantsValue, hs, hjoin,
        sub_join]
      exact (and_iff_right rfl).symm
  | false =>
      refine iff_of_false ?_ fun hcond => Bool.false_ne_true hcond.1
      rintro ⟨tree', answer, T', hrun, h', hwithout⟩
      rw [rbtRemove_of_two_children c h hwhole hord hl hr hkey] at hrun
      have ht := ne_leaf_of_sides hl hr hjoin
      rw [removeInner_no_memory (hjoin ▸ h) hs ht] at hrun
      cases hrun
      exact not_without_self h h' rfl hwithout

/-! ## Two trees -/

/-- The bytes of keys in their lexicographic order. -/
def lexicographic : OrderComparator (List UInt8) :=
  OrderComparator.ofInjective Comparators.word Comparators.word_injective

/-- A tree whose nodes are at successive addresses, the root at the first one. -/
def treeOfNodes (ns : List (RbtNode V)) : Rbt V where
  nodes := ns.foldl (fun h n => (h.alloc n).1) Heap.empty
  root := some 0
  freeValueCb := false
  freed := []
  prevnext := 0

/-- The data of a node with the first letter of its key as its value. -/
def keyed (color : Color) (key : List UInt8) : RbtData ℕ :=
  ⟨color, key, key.length, some key.length⟩

/-- A root with two children; the left one has a longer key than the others. -/
def longNeighbour : PTree (RbtData ℕ) :=
  .node (.node .leaf 1 (keyed .red [1, 1]) .leaf) 0 (keyed .black [5])
    (.node .leaf 2 (keyed .red [9]) .leaf)

/-- The predecessor of the root is two levels down and has a child. -/
def deepNeighbour : PTree (RbtData ℕ) :=
  .node
    (.node (.node .leaf 5 (keyed .black [0]) .leaf) 1 (keyed .red [1])
      (.node (.node .leaf 3 (keyed .red [2]) .leaf) 2 (keyed .black [3]) .leaf))
    0 (keyed .black [5]) (.node .leaf 4 (keyed .black [9]) .leaf)

/-- The nodes of a tree, for successive addresses. -/
def longNeighbourTree : Rbt ℕ :=
  treeOfNodes [⟨some 1, some 2, none, keyed .black [5]⟩, ⟨none, none, some 0, keyed .red [1, 1]⟩,
    ⟨none, none, some 0, keyed .red [9]⟩]

def deepNeighbourTree : Rbt ℕ :=
  treeOfNodes [⟨some 1, some 4, none, keyed .black [5]⟩, ⟨some 5, some 2, some 0, keyed .red [1]⟩,
    ⟨some 3, none, some 1, keyed .black [3]⟩, ⟨none, none, some 2, keyed .red [2]⟩,
    ⟨none, none, some 0, keyed .black [9]⟩, ⟨none, none, some 1, keyed .black [0]⟩]

theorem represents_longNeighbourTree : Represents longNeighbourTree longNeighbour := by
  have hbrk : (Heap.empty : Heap (RbtNode ℕ)).brk = 0 := rfl
  refine ⟨?_, rfl⟩
  simp only [longNeighbourTree, treeOfNodes, List.foldl_cons, List.foldl_nil, Heap.cells_alloc,
    Heap.cells_empty, longNeighbour, PTree.cells, PTree.addr, Heap.alloc_brk, hbrk, zero_add,
    Nat.reduceAdd, add_zero]
  abel

theorem represents_deepNeighbourTree : Represents deepNeighbourTree deepNeighbour := by
  have hbrk : (Heap.empty : Heap (RbtNode ℕ)).brk = 0 := rfl
  refine ⟨?_, rfl⟩
  simp only [deepNeighbourTree, treeOfNodes, List.foldl_cons, List.foldl_nil, Heap.cells_alloc,
    Heap.cells_empty, deepNeighbour, PTree.cells, PTree.addr, Heap.alloc_brk, hbrk, zero_add,
    Nat.reduceAdd, add_zero]
  abel

instance (t : PTree (RbtData V)) : Decidable (Whole t) :=
  inferInstanceAs (Decidable (∀ d ∈ t.values, d.key.length = d.klen))

theorem ordered_longNeighbour :
    Ordered lexicographic.toComparator RbtData.key longNeighbour := by
  unfold Ordered
  decide

theorem ordered_deepNeighbour :
    Ordered lexicographic.toComparator RbtData.key deepNeighbour := by
  unfold Ordered
  decide

theorem rbtRemove_removesEntry_iff_deep :
    RemovesEntry lexicographic.cmp true { deepNeighbourTree with prevnext := 1 } [5] true
        deepNeighbour (keyed .black [5]) ↔
      true = true ∧ NeighbourFits .right (.node .leaf 4 (keyed .black [9]) .leaf)
        (keyed .black [5]) :=
  rbtRemove_removesEntry_iff lexicographic.toComparator { deepNeighbourTree with prevnext := 1 }
    _ _ 0 (keyed .black [5]) [] ⟨represents_deepNeighbourTree.1, rfl⟩ (by decide)
    ordered_deepNeighbour (join_ne_leaf .left _ _ _ _) (join_ne_leaf .left _ _ _ _) [5]
    (by decide) true true

/-- The root of the first tree is left with a key that is longer than it says; in the second
one a child has the root as its parent afterwards, but is not a child of it. -/
theorem neighbours_that_do_not_fit :
    (Represents longNeighbourTree longNeighbour ∧ Whole longNeighbour ∧
      Ordered lexicographic.toComparator RbtData.key longNeighbour ∧
      ¬ RemovesEntry lexicographic.cmp true longNeighbourTree [5] true longNeighbour
        (keyed .black [5])) ∧
    Represents deepNeighbourTree deepNeighbour ∧ Whole deepNeighbour ∧
      Ordered lexicographic.toComparator RbtData.key deepNeighbour ∧
      ¬ RemovesEntry lexicographic.cmp true deepNeighbourTree [5] true deepNeighbour
        (keyed .black [5]) := by
  have hkey : lexicographic.cmp [5] [5] = 0 := by decide
  have hlong : Whole longNeighbour := by decide
  have hdeep : Whole deepNeighbour := by decide
  refine ⟨⟨represents_longNeighbourTree, hlong, ordered_longNeighbour, ?_⟩,
    represents_deepNeighbourTree, hdeep, ordered_deepNeighbour, ?_⟩
  · have h : Represents longNeighbourTree (plug longNeighbour []) := represents_longNeighbourTree
    intro hremoves
    have hfits := (removesEntry_iff_fits lexicographic.toComparator h hlong ordered_longNeighbour
      (join_ne_leaf .left _ _ _ _) (join_ne_leaf .left _ _ _ _) hkey
      (rfl : neighbourSide 0 = .left) rfl true).mp hremoves
    exact absurd (hfits _ _ rfl).1 (by decide)
  · have h : Represents deepNeighbourTree (plug deepNeighbour []) := represents_deepNeighbourTree
    intro hremoves
    have hfits := (removesEntry_iff_fits lexicographic.toComparator h hdeep ordered_deepNeighbour
      (join_ne_leaf .left _ _ _ _) (join_ne_leaf .left _ _ _ _) hkey
      (rfl : neighbourSide 0 = .left) rfl true).mp hremoves
    rcases (hfits _ _ rfl).2 with hleaf | hleaf
    · cases hleaf
    · cases hleaf

end RbTree
end LibHL
