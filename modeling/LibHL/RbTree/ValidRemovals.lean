import LibHL.RbTree.FailedAdditions

/-!
# When a removal leaves a red-black tree

A removal repairs the colours in one case only, and updates the root pointer in none.  So a
red leaf may go away, and a node with one child unless it is the root; an inner node may if
the neighbour that is taken for it is red, and has a key of the same length.  In every other
case the tree is not a red-black tree afterwards.
-/

namespace LibHL
namespace RbTree

open LinkedNode PTree RbtData

variable {V : Type} {tree tree' : Rbt V} {nodes : Heap (RbtNode V)} {s : Side}
  {t u v T T' : PTree (RbtData V)} {f : Frame (RbtData V)} {fs path : List (Frame (RbtData V))}
  {x y : Addr} {d e : RbtData V} {c : Comparator (List UInt8)} {key : List UInt8}
  {mem wantsValue : Bool}

/-! ## What is asked, and the condition -/

/-- What a removal answers for the node that has the key. -/
def removedAnswer (wantsValue : Bool) : Option (RbtData V) → RbtAnswer V
  | none => ⟨-1, none⟩
  | some d => ⟨0, if wantsValue = true then some d.value else none⟩

/-- A value that the caller does not want goes to the callback.  Null pointers are left
out. -/
def Hands (tree tree' : Rbt V) (wantsValue : Bool) (value : Option V) : Prop :=
  tree'.freeValueCb = tree.freeValueCb ∧ tree'.freed.filterMap id = tree.freed.filterMap id ++
    if wantsValue = false ∧ tree.freeValueCb = true then value.toList else []

/-- The call finds the entry with the key, if there is one, hands its value to the caller or to
the callback, and leaves a red-black tree of the other ones. -/
def RemovesKey (c : Comparator (List UInt8)) (mem : Bool) (tree : Rbt V)
    (T : PTree (RbtData V)) (key : List UInt8) (wantsValue : Bool) : Prop :=
  ∃ tree' T', rbtRemove c.cmp mem tree key wantsValue =
      some (tree', removedAnswer wantsValue (lookup c RbtData.key T.values key)) ∧
    Valid c tree' T' ∧
    T'.values.map entry = (T.values.map entry).filter (fun e => c.cmp e.1 key ≠ 0) ∧
    Hands tree tree' wantsValue ((lookup c RbtData.key T.values key).bind RbtData.value)

/-- The call leaves a red-black tree, whatever is in it. -/
def LeavesValid (c : Comparator (List UInt8)) (mem : Bool) (tree : Rbt V) (key : List UInt8)
    (wantsValue : Bool) : Prop :=
  ∃ tree' answer T', rbtRemove c.cmp mem tree key wantsValue = some (tree', answer) ∧
    Valid c tree' T'

/-- The last node towards an inner node is red and has a key of the same length. -/
def RedNeighbour (s : Side) (t : PTree (RbtData V)) (d : RbtData V) : Prop :=
  ∀ e ∈ t.last s.other, e.1.color = .red ∧ e.1.klen = d.klen

instance (s : Side) (t : PTree (RbtData V)) (d : RbtData V) : Decidable (RedNeighbour s t d) :=
  inferInstanceAs (Decidable (∀ e ∈ t.last s.other, e.1.color = .red ∧ e.1.klen = d.klen))

/-- The node at a place may go away, when its neighbour is taken from side `s`. -/
def NodeFits (mem : Bool) (s : Side) : PTree (RbtData V) → List (Frame (RbtData V)) → Prop
  | .leaf, _ => True
  | .node l a d r, fs =>
      if l.addr.isSome ∧ r.addr.isSome then
        mem = true ∧ RedNeighbour s ((PTree.node l a d r).sub s) d
      else if l.addr.isSome ∨ r.addr.isSome then fs ≠ []
      else d.color = .red

instance (mem : Bool) (s : Side) (t : PTree (RbtData V)) (fs : List (Frame (RbtData V))) :
    Decidable (NodeFits mem s t fs) := by
  cases t with
  | leaf => exact isTrue trivial
  | node l a d r => exact inferInstanceAs (Decidable (ite _ _ _))

/-! ## The parts of the result -/

theorem answer_handOver (tree : Rbt V) (wantsValue : Bool) (d : RbtData V) :
    (handOver tree wantsValue d.value).2 = removedAnswer wantsValue (some d) := by
  cases wantsValue with
  | true => rfl
  | false =>
      unfold handOver
      split
      · contradiction
      split <;> rfl

theorem hands_handOver (tree : Rbt V) (wantsValue : Bool) (value : Option V) :
    Hands tree (handOver tree wantsValue value).1 wantsValue value := by
  unfold handOver
  split
  · next hwants =>
      rw [Hands, if_neg (by simp [hwants]), List.append_nil]
      exact ⟨rfl, rfl⟩
  split
  · next hwants hcb =>
      rw [Hands, if_pos ⟨Bool.eq_false_iff.mpr hwants, hcb⟩, List.filterMap_append]
      refine ⟨rfl, congrArg _ ?_⟩
      cases value <;> rfl
  · next hcb =>
      rw [Hands, if_neg (fun h => hcb h.2), List.append_nil]
      exact ⟨rfl, rfl⟩

theorem handOver_eq (tree : Rbt V) (wantsValue : Bool) (d : RbtData V) :
    ∃ tree', handOver tree wantsValue d.value = (tree', removedAnswer wantsValue (some d)) ∧
      tree'.nodes = tree.nodes ∧ tree'.root = tree.root ∧ Hands tree tree' wantsValue d.value := by
  obtain ⟨hnodes, hroot⟩ := handOver_fields tree wantsValue d.value
  exact ⟨_, Prod.ext rfl (answer_handOver tree wantsValue d), hnodes, hroot,
    hands_handOver tree wantsValue d.value⟩

theorem addr_eq_of_cells (h : nodes.cells = T.cells none) (h' : nodes.cells = t.cells none) :
    T.addr = t.addr := by
  cases haddr : t.addr with
  | none =>
      obtain rfl := addr_eq_none haddr
      have hcard := congrArg Multiset.card (h.symm.trans h')
      rw [card_cells, card_cells] at hcard
      cases T with
      | leaf => rfl
      | node l a x r => cases hcard
  | some a =>
      obtain ⟨n, hn⟩ := mem_cells_of_addr haddr none
      rw [← h', Heap.mem_cells] at hn
      exact (parent_eq_none_iff h hn).mp ((parent_eq_none_iff h' hn).mpr haddr)

theorem lookup_of_node {l r : PTree (RbtData V)}
    (hord : Ordered c RbtData.key (plug (.node l x d r) fs)) (hkey : c.cmp d.key key = 0) :
    lookup c RbtData.key (plug (.node l x d r) fs).values key = some d := by
  rw [← rootData_seek hord]
  exact congrArg (fun p => p.1.rootData) (seek_node (s := .left) hord hkey)

/-- A removal that has a result leaves the entries without one. -/
theorem removesKey_of_without {l r : PTree (RbtData V)} (h : Valid c tree (plug (.node l x d r) fs))
    (hkey : c.cmp d.key key = 0)
    (hrun : rbtRemove c.cmp mem tree key wantsValue =
      some (tree', removedAnswer wantsValue (some d)))
    (hrep : Represents tree' T') (hred : RedBlack RbtData.color T')
    (hwithout : Without d.entry ((plug (.node l x d r) fs).values.map entry)
      (T'.values.map entry)) (hhands : Hands tree tree' wantsValue d.value) :
    RemovesKey c mem tree (plug (.node l x d r) fs) key wantsValue := by
  have hasc := ordered_iff_entries.mp h.ordered
  refine ⟨tree', T', ?_, ⟨hrep, ?_, ?_, hred⟩, ?_, ?_⟩
  · rw [lookup_of_node h.ordered hkey]
    exact hrun
  · intro e he
    obtain ⟨A, B, hAB, hT'⟩ := hwithout
    have hmem : e.entry ∈ A ++ d.entry :: B := by
      have hmem' : e.entry ∈ A ++ B := hT' ▸ List.mem_map_of_mem he
      exact (List.sublist_cons_self d.entry B).append_left A |>.mem hmem'
    rw [← hAB] at hmem
    obtain ⟨e', he', heq⟩ := List.mem_map.mp hmem
    have hlen := h.whole e' he'
    cases e'
    cases e
    cases heq
    exact hlen
  · exact ordered_iff_entries.mpr (hwithout.ascending hasc)
  · exact hwithout.eq_filter hasc hkey
  · rw [lookup_of_node h.ordered hkey]
    exact hhands

/-- What goes away at a place goes away in the tree. -/
theorem without_plug (h : Without d.entry (t.values.map entry) (u.values.map entry))
    (fs : List (Frame (RbtData V))) :
    Without d.entry ((plug t fs).values.map entry) ((plug u fs).values.map entry) := by
  obtain ⟨A, B, hAB⟩ := exists_values_plug fs
  rw [hAB, hAB]
  simp only [List.map_append]
  exact h.around _ _

/-! ## A leaf -/

theorem answer_of_removeLeaf {n : RbtNode V} {answer : RbtAnswer V} (hx : tree.nodes x = some n)
    (hrun : removeLeaf tree x wantsValue = some (tree', answer)) :
    answer = removedAnswer wantsValue (some n.data) ∧
      Hands tree tree' wantsValue n.data.value := by
  simp only [removeLeaf, hx, Option.bind_eq_bind, Option.bind_some, Option.bind_eq_some_iff]
    at hrun
  obtain ⟨nodes₁, -, nodes₂, -, heq⟩ := hrun
  split at heq
  · next hnull =>
      -- the callback does not see a null pointer
      cases heq
      rw [hnull.1, Option.isNone_iff_eq_none.mp hnull.2]
      exact ⟨rfl, rfl, by simp⟩
  · obtain ⟨t, hhand, -, -, hhands⟩ := handOver_eq { tree with nodes := nodes₂ } wantsValue n.data
    rw [hhand] at heq
    cases heq
    exact ⟨rfl, hhands⟩

theorem leaf_run (mem wantsValue : Bool)
    (h : Valid c tree (plug (.node .leaf x d .leaf) fs))
    (hkey : c.cmp d.key key = 0) :
    ∃ tree', rbtRemove c.cmp mem tree key wantsValue =
        some (tree', removedAnswer wantsValue (some d)) ∧
      tree'.nodes.cells = frameCells none fs ∧ tree'.root = rootOf (some x) fs ∧
      Hands tree tree' wantsValue d.value := by
  have hplaced := represents_plug.mp h.represents
  obtain ⟨tree', answer, hrun, hcells, hroot⟩ := removeLeaf_spec hplaced wantsValue
  obtain ⟨rfl, hhands⟩ := answer_of_removeLeaf (hplaced.node_eq (s := .left)) hrun
  have hfound := rbtRemove_found c h.represents h.whole h.ordered hkey mem wantsValue
  rw [if_neg (by simp), if_neg (by simp), hrun] at hfound
  rw [add_zero] at hcells
  exact ⟨tree', hfound, hcells, hroot.trans hplaced.root_eq, hhands⟩

theorem represents_without_leaf (hcells : tree'.nodes.cells = frameCells none (f :: fs))
    (hroot : tree'.root = rootOf (some x) (f :: fs)) :
    Represents tree' (plug .leaf (f :: fs)) := by
  refine ⟨?_, ?_⟩
  · rw [cells_plug, hcells, cells_leaf, zero_add, addr_leaf]
  · rw [hroot, addr_plug]
    rfl

theorem leaf_fits (h : Valid c tree (plug (.node .leaf x d .leaf) fs))
    (hkey : c.cmp d.key key = 0)
    (hvalid : LeavesValid c mem tree key wantsValue) : d.color = .red := by
  obtain ⟨tree', hrun, hcells, hroot, -⟩ := leaf_run mem wantsValue h hkey
  obtain ⟨tree₂, answer, T', hrun₂, h'⟩ := hvalid
  cases hrun.symm.trans hrun₂
  cases fs with
  | nil =>
      have haddr := addr_eq_of_cells h'.represents.cells (t := .leaf) hcells
      cases hroot.symm.trans (h'.represents.root_eq.trans haddr)
  | cons f fs =>
      rw [h'.represents.unique (represents_without_leaf hcells hroot)] at h'
      exact (redBlack_without_leaf h.redBlack).mp h'.redBlack

theorem leaf_removesKey (h : Valid c tree (plug (.node .leaf x d .leaf) fs))
    (hkey : c.cmp d.key key = 0) (hd : d.color = .red) :
    RemovesKey c mem tree (plug (.node .leaf x d .leaf) fs) key wantsValue := by
  obtain ⟨tree', hrun, hcells, hroot, hhands⟩ := leaf_run mem wantsValue h hkey
  obtain ⟨f, fs, rfl⟩ := List.exists_cons_of_ne_nil (ne_nil_of_red h.redBlack hd)
  exact removesKey_of_without h hkey hrun (represents_without_leaf hcells hroot)
    ((redBlack_without_leaf h.redBlack).mpr hd)
    (without_plug (without_middle _ [] []) _) hhands

/-! ## A node with one child -/

theorem exists_one_child {l r : PTree (RbtData V)} (hboth : ¬ (l.addr.isSome ∧ r.addr.isSome))
    (hone : l.addr.isSome ∨ r.addr.isSome) :
    ∃ s v, v ≠ .leaf ∧ PTree.node l x d r = join s v .leaf x d := by
  cases l with
  | leaf => exact ⟨.right, r, fun hr => by simp [hr] at hone, rfl⟩
  | node ll a dl lr =>
      cases r with
      | leaf => exact ⟨.left, .node ll a dl lr, nofun, rfl⟩
      | node rl b dr rr => exact absurd ⟨rfl, rfl⟩ hboth

/-- A node with one child is black, and the child is red: it is painted black. -/
theorem upper_run (mem wantsValue : Bool) {l r : PTree (RbtData V)} (h : Valid c tree (plug (.node l x d r) fs))
    (hkey : c.cmp d.key key = 0) (hboth : ¬ (l.addr.isSome ∧ r.addr.isSome))
    (hone : l.addr.isSome ∨ r.addr.isSome) (hv : v ≠ .leaf)
    (hjoin : PTree.node l x d r = join s v .leaf x d) :
    ∃ tree', rbtRemove c.cmp mem tree key wantsValue =
        some (tree', removedAnswer wantsValue (some d)) ∧
      tree'.nodes.cells = (paintRoot .black v).cells (parentOf fs) + frameCells v.addr fs ∧
      tree'.root = rootOf (some x) fs ∧ v.addr ≠ some x ∧ Hands tree tree' wantsValue d.value := by
  have hplaced := represents_plug.mp h.represents
  have hcolours := h.redBlack
  rw [hjoin] at hplaced hcolours
  rw [← join_other] at hcolours
  obtain ⟨hblack, hred, -⟩ := colours_of_one_child hcolours hv
  obtain ⟨nodes', hrun, hcells⟩ := removeUpper_spec hplaced hv (fun _ => hred) wantsValue
  obtain ⟨tree', hhand, hnodes, hroot, hhands⟩ :=
    handOver_eq { tree with nodes := nodes' } wantsValue d
  dsimp only at hnodes hroot
  have hfound := rbtRemove_found c h.represents h.whole h.ordered hkey mem wantsValue
  rw [if_neg hboth, if_pos hone, hrun, hhand] at hfound
  rw [if_pos hblack, add_zero, ← hnodes] at hcells
  have hbefore := hplaced.cells_join
  rw [add_assoc] at hbefore
  refine ⟨tree', hfound, hcells, ?_, addr_ne_of_cells hbefore, hhands⟩
  rw [hroot, hplaced.root_eq, addr_join]

theorem upper_fits {l r : PTree (RbtData V)} (h : Valid c tree (plug (.node l x d r) fs))
    (hkey : c.cmp d.key key = 0) (hboth : ¬ (l.addr.isSome ∧ r.addr.isSome))
    (hone : l.addr.isSome ∨ r.addr.isSome) (hvalid : LeavesValid c mem tree key wantsValue) :
    fs ≠ [] := by
  rintro rfl
  obtain ⟨s, v, hv, hjoin⟩ := exists_one_child (x := x) (d := d) hboth hone
  obtain ⟨tree', hrun, hcells, hroot, hne, -⟩ :=
    upper_run mem wantsValue h hkey hboth hone hv hjoin
  obtain ⟨tree₂, answer, T', hrun₂, h'⟩ := hvalid
  cases hrun.symm.trans hrun₂
  rw [parentOf_nil, frameCells_nil, add_zero] at hcells
  have haddr := addr_eq_of_cells h'.represents.cells hcells
  rw [addr_paintRoot, ← h'.represents.root_eq, hroot] at haddr
  exact hne haddr.symm

theorem upper_removesKey {l r : PTree (RbtData V)} (h : Valid c tree (plug (.node l x d r) fs))
    (hkey : c.cmp d.key key = 0) (hboth : ¬ (l.addr.isSome ∧ r.addr.isSome))
    (hone : l.addr.isSome ∨ r.addr.isSome) (hne : fs ≠ []) :
    RemovesKey c mem tree (plug (.node l x d r) fs) key wantsValue := by
  obtain ⟨s, v, hv, hjoin⟩ := exists_one_child (x := x) (d := d) hboth hone
  obtain ⟨tree', hrun, hcells, hroot, -, hhands⟩ :=
    upper_run mem wantsValue h hkey hboth hone hv hjoin
  obtain ⟨f, fs, rfl⟩ := List.exists_cons_of_ne_nil hne
  have hcolours := h.redBlack
  rw [hjoin, ← join_other] at hcolours
  obtain ⟨-, hred, hcol, hframes⟩ := colours_of_one_child hcolours hv
  have hrep : Represents tree' (plug (paintRoot .black v) (f :: fs)) := by
    refine ⟨?_, ?_⟩
    · rw [cells_plug, hcells, addr_paintRoot]
    · rw [hroot, addr_plug]
      rfl
  refine removesKey_of_without h hkey hrun hrep ?_ (without_plug ?_ _) hhands
  · refine redBlack_plug.mpr ⟨1, coloured_paintRoot_of_red hcol hred, hframes, fun hnot => ?_⟩
    cases v with
    | leaf => exact absurd rfl hv
    | node vl a dv vr => cases hnot
  · rw [hjoin, entries_paintRoot]
    cases s with
    | left => exact ⟨v.values.map entry, [], by simp [join, values], by simp⟩
    | right => exact ⟨[], v.values.map entry, by simp [join, values], rfl⟩

/-! ## An inner node -/

/-- The cells after a neighbour without child has been taken out. -/
theorem represents_taken {d' : RbtData V}
    (hcells : tree'.nodes.cells =
      v.cells (some x) + frameCells v.addr (path ++ ⟨s, x, d', u⟩ :: fs))
    (hroot : tree'.root = rootOf (some x) fs) (hlinks : path = [] ∨ v = .leaf) :
    Represents tree' (plug v (path ++ ⟨s, x, d', u⟩ :: fs)) := by
  refine ⟨?_, ?_⟩
  · rw [cells_plug, hcells]
    rcases hlinks with rfl | rfl <;> rfl
  · rw [hroot, addr_plug, rootOf_append]
    rfl

theorem redNeighbour_plug (hside : ∀ f ∈ path, f.side = s.other) :
    RedNeighbour s (plug (join s.other .leaf v y e) path) d ↔
      e.color = .red ∧ e.klen = d.klen := by
  rw [RedNeighbour, last_plug_join hside]
  constructor
  · exact fun h => h (e, v) rfl
  · rintro h e' heq
    cases heq
    exact h

/-- The node of a whole tree that took over the key of its neighbour has the length of that
key. -/
theorem klen_eq_of_whole {p : Option Addr} (h : Represents tree T) (hwhole : Whole T)
    (hcells : tree.nodes.cells =
      v.cells p + frameCells v.addr (path ++ ⟨s, x, takeOver d e, u⟩ :: fs))
    (hlen : e.key.length = e.klen) : e.klen = d.klen := by
  have hbag := bag_of_cells h hcells
  rw [plug_append, plug, bag_plug, bag_join] at hbag
  have hmem : (takeOver d e).entry ∈ T.bag entry := by
    rw [hbag]
    simp
  obtain ⟨e', he', heq⟩ := (mem_bag entry).mp hmem
  have hkey : e'.key = e.key := congrArg Prod.fst heq
  have hklen : e'.klen = d.klen := congrArg (fun c => c.2.1) heq
  rw [← hlen, ← hklen, ← hkey]
  exact hwhole e' he'

/-- An inner node takes over what its neighbour stores. -/
theorem inner_run (wantsValue : Bool) {l r : PTree (RbtData V)} (h : Valid c tree (plug (.node l x d r) fs))
    (hkey : c.cmp d.key key = 0) (hl : l ≠ .leaf) (hr : r ≠ .leaf)
    (hs : neighbourSide tree.prevnext = s) (hjoin : PTree.node l x d r = join s t u x d) :
    ∃ tree' y v e path, rbtRemove c.cmp true tree key wantsValue =
        some (tree', removedAnswer wantsValue (some d)) ∧
      t = plug (join s.other .leaf v y e) path ∧ (∀ f ∈ path, f.side = s.other) ∧
      e.key.length = e.klen ∧
      tree'.nodes.cells = v.cells (some x) +
        frameCells v.addr (path ++ ⟨s, x, takeOver d e, u⟩ :: fs) ∧
      tree'.root = rootOf (some x) fs ∧ Hands tree tree' wantsValue d.value := by
  have ht := ne_leaf_of_sides hl hr hjoin
  have hfound := rbtRemove_of_two_children c h.represents h.whole h.ordered hl hr hkey true
    wantsValue
  have hplaced := represents_plug.mp h.represents
  have hwhole := h.whole
  rw [hjoin] at hplaced hwhole
  obtain ⟨y, v, e, path, hnear, rfl, hside⟩ := findNear_spec hplaced ht
  have hlen : e.key.length = e.klen :=
    (whole_join.mp (whole_plug (whole_join.mp (whole_plug hwhole)).1)).2.1
  obtain ⟨nodes', hrun, hcells⟩ := removeInner_spec hplaced hs hnear rfl hside hlen wantsValue
  obtain ⟨tree', hhand, hnodes, hroot, hhands⟩ := handOver_eq
    { tree with nodes := nodes', prevnext := tree.prevnext + 1 } wantsValue d
  dsimp only at hnodes hroot
  rw [hrun, hhand] at hfound
  rw [add_zero, ← hnodes] at hcells
  rw [hplaced.root_eq, addr_join] at hroot
  exact ⟨tree', y, v, e, path, hfound, rfl, hside, hlen, hcells, hroot, hhands⟩

theorem inner_fits_and_removes {l r : PTree (RbtData V)} (h : Valid c tree (plug (.node l x d r) fs))
    (hkey : c.cmp d.key key = 0) (hl : l ≠ .leaf) (hr : r ≠ .leaf)
    (hs : neighbourSide tree.prevnext = s) (hjoin : PTree.node l x d r = join s t u x d) :
    (LeavesValid c true tree key wantsValue → RedNeighbour s t d) ∧
      (RedNeighbour s t d →
        RemovesKey c true tree (plug (.node l x d r) fs) key wantsValue) := by
  obtain ⟨tree', y, v, e, path, hrun, rfl, hside, hlen, hcells, hroot, hhands⟩ :=
    inner_run wantsValue h hkey hl hr hs hjoin
  have hbelow : RedBlack RbtData.color
      (plug (join s.other .leaf v y e) (path ++ ⟨s, x, d, u⟩ :: fs)) := by
    have hred := h.redBlack
    rw [hjoin] at hred
    rwa [plug_append]
  have hsplice := redBlack_splice (y := takeOver d e) hbelow rfl
  rw [redNeighbour_plug hside]
  constructor
  · rintro ⟨tree₂, answer, T', hrun₂, h'⟩
    cases hrun.symm.trans hrun₂
    have hlinks := path_eq_nil_of_links h'.represents hcells
    have hred := h'.redBlack
    rw [h'.represents.unique (represents_taken hcells hroot hlinks)] at hred
    exact ⟨hsplice.mp hred, klen_eq_of_whole h'.represents h'.whole hcells hlen⟩
  · rintro ⟨hred, hklen⟩
    obtain rfl := eq_leaf_of_red hbelow hred
    have hentry : (takeOver d e).entry = e.entry := by
      rw [takeOver, entry, entry, hklen]
    refine removesKey_of_without h hkey hrun (represents_taken hcells hroot (Or.inr rfl))
      (hsplice.mpr hred) ?_ hhands
    rw [hjoin]
    exact without_moved hside hentry fs

theorem inner_refused {l r : PTree (RbtData V)} (h : Valid c tree (plug (.node l x d r) fs))
    (hkey : c.cmp d.key key = 0) (hl : l ≠ .leaf) (hr : r ≠ .leaf) :
    ¬ RemovesKey c false tree (plug (.node l x d r) fs) key wantsValue := by
  rintro ⟨tree', T', hrun, -⟩
  obtain ⟨t, u, hjoin⟩ := node_eq_join l x d r (neighbourSide tree.prevnext)
  have hrep := h.represents
  rw [hjoin] at hrep
  rw [lookup_of_node h.ordered hkey, rbtRemove_of_two_children c h.represents h.whole h.ordered hl
    hr hkey, removeInner_no_memory hrep rfl (ne_leaf_of_sides hl hr hjoin)] at hrun
  cases congrArg (fun r => r.2.rc) (Option.some.inj hrun)

/-! ## The call -/

theorem removesKey_of_absent (h : Valid c tree T) (hleaf : (place c T key).1 = .leaf) :
    RemovesKey c mem tree T key wantsValue := by
  have hnone : lookup c RbtData.key T.values key = none := by
    rw [← rootData_seek h.ordered]
    exact congrArg PTree.rootData hleaf
  have hfind := rbtFindInternal_root c.cmp key h.represents h.whole
  have hnull : (seek (fun d => c.cmp d.key key) T []).1.addr = none :=
    congrArg PTree.addr hleaf
  refine ⟨tree, T, ?_, h, ?_, rfl, ?_⟩
  · rw [hnull] at hfind
    simp [rbtRemove, hfind, hnone, removedAnswer]
  · rw [List.filter_map]
    exact congrArg (List.map entry) (filter_of_lookup_eq_none hnone).symm
  · rw [hnone]
    exact (List.append_nil _).symm.trans (congrArg _ (ite_self []).symm)

/-- The node that the search for a key leads to. -/
theorem place_cases (T : PTree (RbtData V)) (c : Comparator (List UInt8)) (key : List UInt8) :
    (place c T key).1 = .leaf ∨ ∃ l x d r fs, place c T key = (.node l x d r, fs) ∧
      T = plug (.node l x d r) fs ∧ c.cmp d.key key = 0 := by
  have hplug : plug (place c T key).1 (place c T key).2 = T := plug_seek T []
  rcases seek_cases (c := fun d : RbtData V => c.cmp d.key key) T [] with
    hleaf | ⟨l, x, d, r, hnode, hkey⟩
  · exact Or.inl hleaf
  · have hplace : place c T key = (.node l x d r, (place c T key).2) := Prod.ext hnode rfl
    refine Or.inr ⟨l, x, d, r, (place c T key).2, hplace, ?_, hkey⟩
    rw [hplace] at hplug
    exact hplug.symm

theorem nodeFits_of_leavesValid (wantsValue : Bool) (h : Valid c tree T)
    (hvalid : LeavesValid c mem tree key wantsValue)
    (hmem : mem = true ∨ RemovesKey c mem tree T key wantsValue) :
    NodeFits mem (neighbourSide tree.prevnext) (place c T key).1 (place c T key).2 := by
  rcases place_cases T c key with hleaf | ⟨l, x, d, r, fs, hplace, rfl, hkey⟩
  · rw [hleaf]
    trivial
  rw [hplace, NodeFits]
  split
  · next hboth =>
      obtain ⟨t, u, hjoin⟩ := node_eq_join l x d r (neighbourSide tree.prevnext)
      have hl : l ≠ .leaf := fun hl => by simp [hl] at hboth
      have hr : r ≠ .leaf := fun hr => by simp [hr] at hboth
      cases mem with
      | true =>
          rw [hjoin, sub_join]
          exact ⟨rfl, (inner_fits_and_removes h hkey hl hr rfl hjoin).1 hvalid⟩
      | false => exact absurd (hmem.resolve_left Bool.false_ne_true) (inner_refused h hkey hl hr)
  next hboth =>
  split
  · next hone => exact upper_fits h hkey hboth hone hvalid
  · next hone =>
      obtain ⟨hl, hr⟩ := not_or.mp hone
      obtain rfl := addr_eq_none (Option.not_isSome_iff_eq_none.mp hl)
      obtain rfl := addr_eq_none (Option.not_isSome_iff_eq_none.mp hr)
      exact leaf_fits h hkey hvalid

theorem removesKey_of_nodeFits (wantsValue : Bool) (h : Valid c tree T)
    (hfits : NodeFits mem (neighbourSide tree.prevnext) (place c T key).1 (place c T key).2) :
    RemovesKey c mem tree T key wantsValue := by
  rcases place_cases T c key with hleaf | ⟨l, x, d, r, fs, hplace, rfl, hkey⟩
  · exact removesKey_of_absent h hleaf
  rw [hplace, NodeFits] at hfits
  split at hfits
  · next hboth =>
      obtain ⟨rfl, hred⟩ := hfits
      obtain ⟨t, u, hjoin⟩ := node_eq_join l x d r (neighbourSide tree.prevnext)
      have hl : l ≠ .leaf := fun hl => by simp [hl] at hboth
      have hr : r ≠ .leaf := fun hr => by simp [hr] at hboth
      rw [hjoin, sub_join] at hred
      exact (inner_fits_and_removes h hkey hl hr rfl hjoin).2 hred
  next hboth =>
  split at hfits
  · next hone => exact upper_removesKey h hkey hboth hone hfits
  · next hone =>
      obtain ⟨hl, hr⟩ := not_or.mp hone
      obtain rfl := addr_eq_none (Option.not_isSome_iff_eq_none.mp hl)
      obtain rfl := addr_eq_none (Option.not_isSome_iff_eq_none.mp hr)
      exact leaf_removesKey h hkey hfits

theorem RemovesKey.leavesValid (h : RemovesKey c mem tree T key wantsValue) :
    LeavesValid c mem tree key wantsValue := by
  obtain ⟨tree', T', hrun, h', -⟩ := h
  exact ⟨tree', _, T', hrun, h'⟩

/-- A removal from a red-black tree gives the value away and leaves a tree without the key exactly
if the key is absent, or its node is a red leaf, has one child and is not the root, or has a red
neighbour on the side whose turn it is with a key of the same length, and memory can be had for
that key. -/
theorem rbtRemove_removesKey_iff (c : Comparator (List UInt8)) (tree : Rbt V)
    (T : PTree (RbtData V)) (h : Valid c tree T) (mem : Bool) (key : List UInt8)
    (wantsValue : Bool) :
    RemovesKey c mem tree T key wantsValue ↔
      NodeFits mem (neighbourSide tree.prevnext) (place c T key).1 (place c T key).2 :=
  ⟨fun hremoves =>
      nodeFits_of_leavesValid wantsValue h hremoves.leavesValid (Or.inr hremoves),
    removesKey_of_nodeFits wantsValue h⟩

/-! ## Removals from the tree with a root and two red children -/

theorem rbtRemove_removesKey_iff_redChildren :
    Valid lexicographic.toComparator redChildrenTree redChildren ∧
      RemovesKey lexicographic.toComparator true redChildrenTree redChildren [5] true :=
  ⟨valid_redChildrenTree,
    (rbtRemove_removesKey_iff lexicographic.toComparator redChildrenTree redChildren
      valid_redChildrenTree true [5] true).mpr (by decide)⟩

end RbTree
end LibHL
