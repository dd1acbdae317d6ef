import LibHL.RbTree.Search

/-!
# Removing a key

A node with two children keeps its place and takes over the key and the value of a
neighbour, which is released.  The length of the neighbour's key is not taken over, and the
only child of the neighbour gets the node itself as its parent, wherever the neighbour was.
An only child takes the place of its node, and a leaf is cut off.
-/

namespace LibHL
namespace RbTree

open LinkedNode PTree RbtData

variable {V : Type} {tree : Rbt V} {nodes : Heap (RbtNode V)} {root : Option Addr}
  {s : Side} {t u v : PTree (RbtData V)} {fs path : List (Frame (RbtData V))}
  {rest : Multiset (Addr × RbtNode V)} {x y : Addr} {d e : RbtData V}

/-! ## The neighbour -/

/-- Following the children on one side ends at a node without a child there. -/
theorem lastChild_spec : ∀ (fuel : ℕ) (t : PTree (RbtData V)) (fs : List (Frame (RbtData V)))
    (x : Addr), t.height ≤ fuel → t.addr = some x → Placed nodes root t fs rest →
    ∃ y v e path, lastChild s nodes fuel x = some y ∧ t = plug (join s .leaf v y e) path ∧
      ∀ f ∈ path, f.side = s := by
  intro fuel
  induction fuel with
  | zero =>
      intro t fs x hle hx _
      cases t with
      | leaf => cases hx
      | node l a d r => exact absurd hle (Nat.not_succ_le_zero _)
  | succ fuel ih =>
      intro t fs x hle hx h
      obtain ⟨t, u, d, rfl⟩ := exists_join s hx
      have hnode := h.node_eq
      rw [height_join] at hle
      cases ht : t.addr with
      | none =>
          obtain rfl := addr_eq_none ht
          exact ⟨x, u, d, [], by simp [lastChild, hnode], rfl, nofun⟩
      | some c =>
          obtain ⟨y, v, e, path, hlast, hplug, hside⟩ :=
            ih t (⟨s, x, d, u⟩ :: fs) c (by omega) ht (placed_cons.mpr h)
          refine ⟨y, v, e, path ++ [⟨s, x, d, u⟩], ?_, ?_, ?_⟩
          · simp [lastChild, hnode, ht, hlast]
          · rw [plug_append, ← hplug]
            rfl
          · intro f hf
            rcases List.mem_append.mp hf with hmem | hmem
            · exact hside f hmem
            · rw [List.mem_singleton.mp hmem]

/-- The neighbour below on a side has no child on the other side. -/
theorem findNear_spec (h : Placed nodes root (join s t u x d) fs rest) (ht : t ≠ .leaf) :
    ∃ y v e path, findNear s nodes x = some (some y) ∧
      t = plug (join s.other .leaf v y e) path ∧ ∀ f ∈ path, f.side = s.other := by
  obtain ⟨c, hc⟩ := Option.ne_none_iff_exists'.mp fun haddr => ht (addr_eq_none haddr)
  have hnode := h.node_eq
  have hbelow : Placed nodes root t (⟨s, x, d, u⟩ :: fs) rest := placed_cons.mpr h
  have hfuel : t.height ≤ nodes.brk + 1 :=
    (Nat.le_add_right _ _).trans (hbelow.height_le_brk.trans (Nat.le_succ _))
  obtain ⟨y, v, e, path, hlast, hplug, hside⟩ := lastChild_spec _ t _ c hfuel hc hbelow
  refine ⟨y, v, e, path, ?_, hplug, hside⟩
  simp [findNear, hnode, hc, hlast]

/-! ## Taking the neighbour out -/

/-- The only child of the neighbour takes its place, but gets the node as its parent. -/
theorem unhook_spec (hside : ∀ f ∈ path, f.side = s.other)
    (h : Placed nodes root (join s.other .leaf v y e) (path ++ ⟨s, x, d, u⟩ :: fs) rest) :
    ∃ nodes' n, unhook s nodes x y = some nodes' ∧ nodes'.cells = {(y, n)} +
      (v.cells (some x) + frameCells v.addr (path ++ ⟨s, x, d, u⟩ :: fs) + rest) := by
  obtain ⟨g, gs, hframes, hparent⟩ := parentOf_append_cons path ⟨s, x, d, u⟩ fs
  have hx := (placed_append.mp h).above_eq
  have hy := h.node_eq
  have hcells := h.cells_join
  rw [addr_leaf, hparent, link_other] at hy
  rw [addr_leaf, cells_leaf, zero_add, hparent, link_other] at hcells
  obtain ⟨n, hn⟩ : ∃ n, n = link s v.addr none (some g.addr) e := ⟨_, rfl⟩
  have hchild : n.child s = v.addr := by rw [hn, child_link]
  have hsplit : nodes.cells = ({(y, n)} + v.cells (some y) + rest) +
      frameCells (some y) (g :: gs) := by
    rw [hcells, hframes, hn]
    abel
  obtain ⟨nodes₁, hmod, h₁⟩ := setChild_of_frameCells hsplit v.addr
  have h₁' : nodes₁.cells = v.cells (some y) +
      ({(y, n)} + (frameCells v.addr (g :: gs) + rest)) := by
    rw [h₁]
    abel
  obtain ⟨nodes₂, hset, h₂⟩ := setParentOf_of_cells h₁' (some x)
  refine ⟨nodes₂, n, ?_, ?_⟩
  · rw [← hn] at hy
    cases path with
    | nil =>
        -- the neighbour is a child of the node
        cases hframes
        simp only [unhook, hx, hy, Option.bind_eq_bind, Option.bind_some, child_link, plug,
          addr_join, if_true, hchild, hmod, hset]
    | cons f path =>
        cases hframes
        have hne : (plug (join s.other .leaf v y e) (g :: path)).addr ≠ some y := by
          obtain ⟨b, m, hroot, hmem⟩ :=
            exists_mem_frameCells_root (some y) g path (⟨s, x, d, u⟩ :: fs)
          rw [addr_plug, addr_join, hroot]
          intro heq
          have hcell : (b, m) ∈ v.cells (some y) +
              (frameCells (some y) (g :: path ++ ⟨s, x, d, u⟩ :: fs) + rest) :=
            Multiset.mem_add.mpr (Or.inr (Multiset.mem_add.mpr (Or.inl hmem)))
          exact Heap.ne_of_cells hcells hcell (Option.some.inj heq)
        have hg : g.side = s.other := hside g List.mem_cons_self
        have hup : n.parent = some g.addr := by rw [hn, parent_link]
        rw [hg] at hmod
        simp only [unhook, hx, hy, Option.bind_eq_bind, Option.bind_some, child_link, if_neg hne,
          hup, hchild, hmod, hset]
  · rw [h₂, hframes]
    abel

theorem handOver_fields (tree : Rbt V) (wantsValue : Bool) (value : Option V) :
    (handOver tree wantsValue value).1.nodes = tree.nodes ∧
      (handOver tree wantsValue value).1.root = tree.root := by
  unfold handOver
  split
  · exact ⟨rfl, rfl⟩
  split
  · exact ⟨rfl, rfl⟩
  · exact ⟨rfl, rfl⟩

/-- What the node stores afterwards. -/
def takeOver (d e : RbtData V) : RbtData V := { d with key := e.key, value := e.value }

/-- A node with two children takes over the key and the value of its neighbour. -/
theorem removeInner_spec (h : Placed tree.nodes tree.root (join s t u x d) fs rest)
    (hs : neighbourSide tree.prevnext = s) (hnear : findNear s tree.nodes x = some (some y))
    (ht : t = plug (join s.other .leaf v y e) path) (hside : ∀ f ∈ path, f.side = s.other)
    (hlen : e.key.length = e.klen) (wantsValue : Bool) :
    ∃ nodes', removeInner true tree x wantsValue = some (handOver
        { tree with
          nodes := nodes'
          prevnext := tree.prevnext + 1 } wantsValue d.value) ∧
      nodes'.cells = v.cells (some x) +
        frameCells v.addr (path ++ ⟨s, x, takeOver d e, u⟩ :: fs) + rest := by
  have hbelow : ∀ {nodes : Heap (RbtNode V)} {d : RbtData V},
      Placed nodes tree.root (join s t u x d) fs rest →
      Placed nodes tree.root (join s.other .leaf v y e) (path ++ ⟨s, x, d, u⟩ :: fs) rest := by
    intro nodes d hplaced
    rw [placed_append, ← ht]
    exact placed_cons.mpr hplaced
  have hx := h.node_eq
  have hy := (hbelow h).node_eq
  obtain ⟨nodes₁, hmod, h₁⟩ := h.modify_data fun d => takeOver d e
  obtain ⟨nodes₂, n, hunhook, h₂⟩ := unhook_spec hside (hbelow h₁)
  obtain ⟨nodes₃, hfree, h₃⟩ := Heap.free_of_cells h₂
  refine ⟨nodes₃, ?_, h₃⟩
  have hbytes := bytes_of_length hlen
  have hmod' : tree.nodes.modify x
      (·.mapData fun d => { d with key := e.key, value := e.value }) = some nodes₁ := hmod
  simp [removeInner, hs, hx, hnear, hy, hbytes, hmod', hunhook, hfree]

/-! ## A node with one child, and a leaf -/

theorem colorOf_of_cells {p : Option Addr} {F : Multiset (Addr × RbtNode V)}
    (hs : nodes.cells = v.cells p + F) : colorOf nodes v.addr = some (colorAt v) := by
  cases v with
  | leaf => rfl
  | node l a d r =>
      rw [PTree.cells, add_assoc] at hs
      have ha := Heap.eq_some_of_cells hs
      simp [colorOf, PTree.addr, ha, colorAt, rootColor]

theorem paint_of_cells {p : Option Addr} {F : Multiset (Addr × RbtNode V)}
    (hs : nodes.cells = v.cells p + F) (c : Color) :
    ∃ nodes', paint nodes c v.addr = some nodes' ∧
      nodes'.cells = (paintRoot c v).cells p + F := by
  cases v with
  | leaf => exact ⟨nodes, rfl, hs⟩
  | node l a d r =>
      rw [PTree.cells, add_assoc] at hs
      obtain ⟨nodes', hmod, h'⟩ := Heap.modify_of_cells (·.mapData (·.paint c)) hs
      exact ⟨nodes', hmod, h'.trans (add_assoc _ _ _).symm⟩

theorem or_link (c p : Option Addr) (d : RbtData V) :
    (link s c none p d).right.or (link s c none p d).left = c := by
  cases s
  · rfl
  · exact Option.or_none

/-- An only child takes the place of its node; if both are black, nothing is said. -/
theorem removeUpper_spec (h : Placed tree.nodes tree.root (join s v .leaf x d) fs rest)
    (hv : v ≠ .leaf) (hred : d.color = .black → colorAt v = .red) (wantsValue : Bool) :
    ∃ nodes', removeUpper tree x wantsValue =
        some (handOver { tree with nodes := nodes' } wantsValue d.value) ∧
      nodes'.cells = (if d.color = .black then paintRoot .black v else v).cells (parentOf fs) +
        frameCells v.addr fs + rest := by
  obtain ⟨c, hc⟩ := Option.ne_none_iff_exists'.mp fun haddr => hv (addr_eq_none haddr)
  have hx := h.node_eq
  rw [addr_leaf] at hx
  have hcells := h.cells_join
  rw [cells_leaf, add_zero, addr_leaf] at hcells
  have h₀ : tree.nodes.cells = v.cells (some x) +
      ({(x, link s v.addr none (parentOf fs) d)} + (frameCells (some x) fs + rest)) := by
    rw [hcells]
    exact add_left_comm _ _ _
  obtain ⟨nodes₁, hset, h₁⟩ := setParentOf_of_cells h₀ (parentOf fs)
  have h₁' : nodes₁.cells = {(x, link s v.addr none (parentOf fs) d)} +
      (v.cells (parentOf fs) + rest + frameCells (some x) fs) := by
    rw [h₁]
    abel
  obtain ⟨nodes₂, hlink, h₂⟩ := relink_of_cells h₁' v.addr
  have h₂' : nodes₂.cells = v.cells (parentOf fs) +
      ({(x, link s v.addr none (parentOf fs) d)} + (frameCells v.addr fs + rest)) := by
    rw [h₂]
    abel
  have hcolor := colorOf_of_cells h₂'
  rw [hc] at hset hlink hcolor
  have hor := or_link (s := s) v.addr (parentOf fs) d
  rw [hc] at hx hor
  have hset' : tree.nodes.modify c (·.setParent (parentOf fs)) = some nodes₁ := hset
  by_cases hblack : d.color = .black
  · obtain ⟨nodes₃, hpaint, h₃⟩ := paint_of_cells h₂' .black
    rw [add_left_comm] at h₃
    obtain ⟨nodes₄, hfree, h₄⟩ := Heap.free_of_cells h₃
    rw [hc] at hpaint
    refine ⟨nodes₄, ?_, ?_⟩
    · simp [removeUpper, hx, hor, hset', hlink, hcolor, hblack, hred hblack, hpaint, hfree]
    · rw [if_pos hblack, h₄, add_assoc]
  · rw [add_left_comm] at h₂'
    obtain ⟨nodes₃, hfree, h₃⟩ := Heap.free_of_cells h₂'
    refine ⟨nodes₃, ?_, ?_⟩
    · simp [removeUpper, hx, hor, hset', hlink, hcolor, hblack, hfree]
    · rw [if_neg hblack, h₃, add_assoc]

/-- A leaf goes away. -/
theorem removeLeaf_spec (h : Placed tree.nodes tree.root (.node .leaf x d .leaf) fs rest)
    (wantsValue : Bool) :
    ∃ tree' answer, removeLeaf tree x wantsValue = some (tree', answer) ∧
      tree'.nodes.cells = frameCells none fs + rest ∧ tree'.root = tree.root := by
  have hx := h.node_eq (s := .left)
  have hcells := h.cells_join (s := .left)
  rw [cells_leaf, zero_add, zero_add, addr_leaf, add_comm (frameCells _ _)] at hcells
  obtain ⟨nodes₁, hlink, h₁⟩ := relink_of_cells hcells none
  obtain ⟨nodes₂, hfree, h₂⟩ := Heap.free_of_cells h₁
  have hrun : removeLeaf tree x wantsValue =
      some (if wantsValue = false ∧ d.value.isNone then ({ tree with nodes := nodes₂ }, ⟨0, none⟩)
        else handOver { tree with nodes := nodes₂ } wantsValue d.value) := by
    simp [removeLeaf, hx, hlink, hfree]
  rw [add_comm] at h₂
  by_cases hnull : wantsValue = false ∧ d.value.isNone
  · rw [if_pos hnull] at hrun
    exact ⟨_, _, hrun, h₂, rfl⟩
  · rw [if_neg hnull] at hrun
    obtain ⟨hnodes, hroot⟩ := handOver_fields { tree with nodes := nodes₂ } wantsValue d.value
    exact ⟨_, _, hrun, (congrArg Heap.cells hnodes).trans h₂, hroot⟩

/-! ## The removal of a key -/

/-- The search for the key of a node leads to that node. -/
theorem rbtRemove_found (c : Comparator (List UInt8)) {l r : PTree (RbtData V)}
    (h : Represents tree (plug (.node l x d r) fs)) (hwhole : Whole (plug (.node l x d r) fs))
    (hord : Ordered c RbtData.key (plug (.node l x d r) fs))
    {key : List UInt8} (hkey : c.cmp d.key key = 0) (mem wantsValue : Bool) :
    rbtRemove c.cmp mem tree key wantsValue =
      if l.addr.isSome ∧ r.addr.isSome then removeInner mem tree x wantsValue
      else if l.addr.isSome ∨ r.addr.isSome then removeUpper tree x wantsValue
      else removeLeaf tree x wantsValue := by
  have hseek := seek_node (s := .left) hord hkey
  have hfind := rbtFindInternal_root c.cmp key h hwhole
  have hx := (represents_plug.mp h).node_eq (s := .left)
  have hseek' : (seek (fun d => c.cmp d.key key) (plug (.node l x d r) fs) []).1.addr = some x :=
    congrArg (fun p => p.1.addr) hseek
  rw [hseek'] at hfind
  simp only [rbtRemove, hfind, hx, Option.bind_eq_bind, Option.bind_some, link]

end RbTree
end LibHL
