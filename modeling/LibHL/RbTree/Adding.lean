import LibHL.RbTree.Repair

/-!
# What an addition does

The new node is attached as a leaf, or takes the place of the node with its key; then the
cases for a red node follow the repair.  The inner call finds the grandparent, since the
keys are where they were, and puts a fresh node in its place.
-/

namespace LibHL
namespace RbTree

open LinkedNode PTree RbtData

variable {V : Type} {tree : Rbt V} {nodes : Heap (RbtNode V)} {root : Option Addr}
  {t u T : PTree (RbtData V)} {f g : Frame (RbtData V)} {fs : List (Frame (RbtData V))}
  {s : Side} {x new : Addr} {d dn : RbtData V} {rc : ℤ}
  {readd : Rbt V → List UInt8 → Option V → Option (Rbt V × ℤ)}

/-! ## The cases for a red node -/

/-- A subtree and what is above it.  Without anything above it the root may still be another
node, whose place this one has taken. -/
structure Seated (tree : Rbt V) (t : PTree (RbtData V)) (fs : List (Frame (RbtData V))) :
    Prop where
  cells : tree.nodes.cells = t.cells (parentOf fs) + frameCells t.addr fs
  root_eq : fs ≠ [] → tree.root = rootOf t.addr fs

theorem Seated.placed (h : Seated tree t (f :: fs)) :
    Placed tree.nodes tree.root t (f :: fs) 0 :=
  ⟨h.cells.trans (congrArg _ (add_zero _).symm), h.root_eq (List.cons_ne_nil f fs)⟩

theorem Seated.placed_top (h : Seated tree t []) : Placed tree.nodes t.addr t [] 0 :=
  ⟨h.cells.trans (congrArg _ (add_zero _).symm), rfl⟩

theorem settle_top (h : Seated tree (join s t u x d) []) (rc : ℤ) :
    ∃ tree', settle readd tree x rc = some (tree', rc) ∧
      Represents tree' (paintRoot .black (join s t u x d)) ∧ SameLog tree tree' := by
  have hx := h.placed_top.node_eq
  obtain ⟨nodes', hpaint, h'⟩ := paint_spec h.placed_top .black
  rw [addr_join] at hpaint h'
  have hrep : Represents { tree with nodes := nodes', root := some x }
      (plug (paintRoot .black (join s t u x d)) []) := represents_plug.mpr h'
  refine ⟨_, ?_, hrep, rfl, rfl⟩
  simp [settle, hx, hpaint]

theorem settle_black (h : Placed tree.nodes tree.root (join s t u x d) (f :: fs) 0)
    (hf : f.data.color = .black) (rc : ℤ) : settle readd tree x rc = some (tree, rc) := by
  simp [settle, h.node_eq, h.above_eq, hf]

theorem settle_no_grandparent (h : Placed tree.nodes tree.root (join s t u x d) [f] 0)
    (rc : ℤ) : settle readd tree x rc = some (tree, rc) := by
  simp [settle, h.node_eq, h.above_eq, rbtUncle_top h, rbtGrandparent_spec h, colorOf]

/-- Case 3. -/
theorem settle_recolour (readd : Rbt V → List UInt8 → Option V → Option (Rbt V × ℤ))
    (h : Placed tree.nodes tree.root (join s t u x d) (f :: g :: fs) 0)
    (hf : f.data.color = .red) (hg : colorAt g.sibling = .red)
    (hwhole : g.data.key.length = g.data.klen) (rc : ℤ) :
    ∃ nodes', Placed nodes' tree.root (recoloured g.addr (join s t u x d) f g) fs 0 ∧
      settle readd tree x rc =
        (readd { tree with nodes := nodes' } g.data.key g.data.value).map fun r => (r.1, rc) := by
  have hcolor := colorOf_sibling (placed_cons.mp h)
  obtain ⟨nodes₁, hpaint₁, h₁⟩ := paint_above h .black
  obtain ⟨nodes₂, hpaint₂, h₂⟩ := paint_sibling (placed_cons.mp h₁) .black
  obtain ⟨nodes₃, hpaint₃, h₃⟩ := paint_above h₂ .red
  have hcell := h₃.above_eq
  have hbytes : (g.data.paint .red).bytes = some g.data.key :=
    bytes_of_length (d := g.data.paint .red) hwhole
  refine ⟨nodes₃, placed_cons.mp h₃, ?_⟩
  dsimp only at hpaint₂ hpaint₃ hcell
  simp [settle, h.node_eq, h.above_eq, hf, rbtUncle_spec h, rbtGrandparent_spec h, hcolor, hg,
    hpaint₁, hpaint₂, hpaint₃, hcell, hbytes]
  rw [Option.map_eq_bind]
  rfl

/-- The node is an inner grandchild exactly if the sides differ. -/
theorem innerSide_spec (h : Placed tree.nodes tree.root (join s t u x d) (f :: g :: fs) 0)
    {p q : Option Addr} :
    innerSide (link s t.addr u.addr (some f.addr) d)
        (link f.side (some x) f.sibling.addr p f.data)
        (link g.side (some f.addr) g.sibling.addr q g.data) x =
      if f.side = g.side.other then some g.side else none := by
  have hf : f.sibling.addr ≠ some x := h.sibling_ne
  have hg : g.sibling.addr ≠ some f.addr := uncle_ne h
  simp only [innerSide, parent_link]
  cases f.side with
  | left =>
      cases g.side with
      | left => simp [link, Side.other, hf, hg.symm]
      | right => simp [link, Side.other, hf]
  | right =>
      cases g.side with
      | left => simp [link, Side.other]
      | right => simp [link, Side.other, hf, hg.symm]

/-- Case 5 for an outer grandchild. -/
theorem settle_outer (h : Placed tree.nodes tree.root (join s t u x d) (f :: g :: fs) 0)
    (hf : f.data.color = .red) (hg : colorAt g.sibling = .black) (hside : f.side = g.side)
    (rc : ℤ) :
    ∃ tree', settle readd tree x rc = some (tree', rc) ∧
      Represents tree' (plug (lifted (join s t u x d) f g) fs) ∧ SameLog tree tree' := by
  obtain ⟨tree', hlift, h', hlog⟩ := liftParent_spec h hside rc
  refine ⟨tree', ?_, h', hlog⟩
  have hcolor := colorOf_sibling (placed_cons.mp h)
  have hg' := (placed_cons.mp h).above_eq
  have hne : f.side ≠ g.side.other := by
    rw [hside]
    exact (Side.other_ne g.side).symm
  have hinner := innerSide_spec h (p := some g.addr) (q := parentOf fs)
  rw [if_neg hne] at hinner
  rw [addr_join] at hg'
  simp [settle, straighten, h.node_eq, h.above_eq, hf, rbtUncle_spec h, rbtGrandparent_spec h,
    hcolor, hg, hg', hinner, hlift]

/-- Cases 4 and 5 for an inner grandchild. -/
theorem settle_inner (h : Placed tree.nodes tree.root (join g.side t u x d) (f :: g :: fs) 0)
    (hf : f.data.color = .red) (hg : colorAt g.sibling = .black)
    (hside : f.side = g.side.other) (rc : ℤ) :
    ∃ tree', settle readd tree x rc = some (tree', rc) ∧
      Represents tree'
        (plug (lifted (join g.side f.sibling t f.addr f.data) ⟨g.side, x, d, u⟩ g) fs) ∧
      SameLog tree tree' := by
  have hturn : Placed tree.nodes tree.root
      (join g.side f.sibling (join g.side t u x d) f.addr f.data) (g :: fs) 0 := by
    rw [← join_other, ← hside]
    exact placed_cons.mp h
  obtain ⟨nodes₁, root₁, hrot, h₁⟩ := rotate_spec hturn
  have h₁' : Placed { tree with nodes := nodes₁, root := root₁ }.nodes root₁
      (join g.side f.sibling t f.addr f.data) (⟨g.side, x, d, u⟩ :: g :: fs) 0 :=
    placed_cons.mpr h₁
  obtain ⟨tree', hlift, h', hlog⟩ := liftParent_spec h₁' rfl rc
  refine ⟨tree', ?_, h', hlog⟩
  have hcolor := colorOf_sibling (placed_cons.mp h)
  have hg' := (placed_cons.mp h).above_eq
  have hx := h₁.node_eq
  have hinner := innerSide_spec h (p := some g.addr) (q := parentOf fs)
  rw [if_pos hside] at hinner
  rw [addr_join] at hg' hx
  simp [settle, straighten, h.node_eq, h.above_eq, hf, rbtUncle_spec h, rbtGrandparent_spec h,
    hcolor, hg, hg', hinner, hrot, hx, hlift]

/-! ## The new node -/

theorem Represents.readTree_eq (h : Represents tree T) :
    readTree tree.nodes tree.nodes.brk tree.root = some T := by
  rw [h.root_eq]
  refine readTree_of_cells (p := none) (s := 0) ?_ (h.cells.trans (add_zero _).symm)
  exact (Nat.le_add_right _ _).trans h.placed.height_le_brk

theorem Represents.unique {T T' : PTree (RbtData V)} (h : Represents tree T)
    (h' : Represents tree T') : T = T' :=
  Option.some.inj (h.readTree_eq.symm.trans h'.readTree_eq)

/-- What `rbt_add` stores in a new node. -/
def newData (key : List UInt8) (value : Option V) : RbtData V := ⟨.red, key, key.length, value⟩

@[simp] theorem addr_withNew (new : Addr) (dn : RbtData V) (t : PTree (RbtData V)) :
    (withNew new dn t).addr = some new := by
  cases t <;> rfl

theorem withNew_join : withNew new dn (join s t u x d) = join s t u new (dn.paint d.color) := by
  cases s <;> rfl

theorem paint_newData (hwhole : d.key.length = d.klen) (c : Color) :
    (newData d.key d.value).paint c = d.paint c := by
  rw [newData, RbtData.paint, RbtData.paint, hwhole]

/-- Adding the grandparent again releases nothing: its value stays. -/
theorem freedBy_recoloured [DecidableEq V] (tree : Rbt V) (t : PTree (RbtData V))
    (f g : Frame (RbtData V)) : freedBy tree (newData g.data.key g.data.value)
      (recoloured g.addr t f g) = tree.freed := by
  cases hside : g.side <;> simp [recoloured, hside, join, freedBy, newData, RbtData.paint]

/-- A refused allocation leaves the cells as they were. -/
theorem addLoop_refused [DecidableEq V] (cmp : List UInt8 → List UInt8 → ℤ) (fuel : ℕ)
    {mem : ℕ → Bool} (hmem : ¬ (mem 0 = true ∧ mem 1 = true)) (tree : Rbt V) (key : List UInt8)
    (value : Option V) :
    ∃ nodes', addLoop cmp (fuel + 1) mem tree key value =
        some ({ tree with nodes := nodes' }, -1) ∧ nodes'.cells = tree.nodes.cells := by
  cases hnode : mem 0 with
  | false => exact ⟨tree.nodes, by simp [addLoop, hnode], rfl⟩
  | true =>
      have hkey : mem 1 = false := Bool.eq_false_iff.mpr fun hkey => hmem ⟨hnode, hkey⟩
      obtain ⟨nodes', hfree, h'⟩ := Heap.free_of_cells
        (tree.nodes.cells_alloc (⟨none, none, none, newData key value⟩ : RbtNode V))
      refine ⟨nodes', ?_, h'⟩
      have hfree' : Heap.free (tree.nodes.alloc
          (⟨none, none, none, ⟨.red, key, key.length, value⟩⟩ : RbtNode V)).1 tree.nodes.brk =
            some nodes' := hfree
      simp [addLoop, hnode, hkey, hfree']

/-- The new node goes where the search for its key ends. -/
theorem addLoop_granted [DecidableEq V] (cmp : List UInt8 → List UInt8 → ℤ) (fuel : ℕ)
    {mem : ℕ → Bool} (hmem : mem 0 = true ∧ mem 1 = true) (h : Represents tree T)
    (hwhole : Whole T) (hT : T ≠ .leaf) (key : List UInt8) (value : Option V) :
    ∃ tree', Seated tree'
        (withNew tree.nodes.brk (newData key value) (seek (fun d => cmp d.key key) T []).1)
        (seek (fun d => cmp d.key key) T []).2 ∧
      (tree'.freeValueCb = tree.freeValueCb ∧ tree'.freed =
        freedBy tree (newData key value) (seek (fun d => cmp d.key key) T []).1) ∧
      addLoop cmp (fuel + 1) mem tree key value =
        finishAdd (addLoop cmp fuel fun i => mem (i + 2)) tree' tree.nodes.brk
          (addedRc (seek (fun d => cmp d.key key) T []).1) := by
  obtain ⟨root, hroot⟩ := Option.ne_none_iff_exists'.mp fun haddr => hT (addr_eq_none haddr)
  obtain ⟨nodes, hnodes⟩ : ∃ nodes, nodes = (tree.nodes.alloc
      (⟨none, none, none, newData key value⟩ : RbtNode V)).1 := ⟨_, rfl⟩
  have hplaced : Placed { tree with nodes := nodes }.nodes tree.root T []
      {(tree.nodes.brk, ⟨none, none, none, newData key value⟩)} := by
    refine ⟨?_, h.root_eq⟩
    rw [hnodes, Heap.cells_alloc, h.cells, parentOf_nil, frameCells_nil, zero_add, add_comm]
  have hfuel : T.height ≤ nodes.brk + 1 :=
    (Nat.le_add_right _ _).trans (hplaced.height_le_brk.trans (Nat.le_succ _))
  obtain ⟨freed', hfreed⟩ : ∃ freed', freed' =
      freedBy tree (newData key value) (seek (fun d => cmp d.key key) T []).1 := ⟨_, rfl⟩
  obtain ⟨nodes', hadd, hcells⟩ : ∃ nodes',
      rbtAddInternal cmp (nodes.brk + 1) { tree with nodes := nodes } root tree.nodes.brk =
        some ({ tree with nodes := nodes', freed := freed' },
          addedRc (seek (fun d => cmp d.key key) T []).1) ∧
      nodes'.cells = (withNew tree.nodes.brk (newData key value)
          (seek (fun d => cmp d.key key) T []).1).cells
            (parentOf (seek (fun d => cmp d.key key) T []).2) +
        frameCells (some tree.nodes.brk) (seek (fun d => cmp d.key key) T []).2 := by
    rw [hfreed]
    exact rbtAddInternal_spec cmp rfl (nodes.brk + 1) T [] root hfuel hroot hplaced hwhole
  refine ⟨{ tree with nodes := nodes', freed := freed' }, ⟨?_, fun hne => ?_⟩, ⟨rfl, hfreed⟩, ?_⟩
  · rw [addr_withNew]
    exact hcells
  · have hplug := plug_seek (c := fun d : RbtData V => cmp d.key key) T []
    have haddr := congrArg PTree.addr hplug
    obtain ⟨f, fs, hfs⟩ := List.exists_cons_of_ne_nil hne
    rw [addr_plug, hfs] at haddr
    rw [hfs]
    exact h.root_eq.trans haddr.symm
  · have halloc : tree.nodes.alloc
        (⟨none, none, none, ⟨.red, key, key.length, value⟩⟩ : RbtNode V) =
          (nodes, tree.nodes.brk) := by
      rw [hnodes]
      rfl
    have hroot' : tree.root = some root := h.root_eq.trans hroot
    rw [hroot'] at hadd
    simp only [addLoop, hmem.1, hmem.2, halloc, hroot', hadd, Bool.true_eq_false, if_false,
      Option.bind_eq_bind, Option.bind_some]

/-! ## The repair -/

theorem ordered_iff_entries {c : Comparator (List UInt8)} :
    Ordered c RbtData.key t ↔ Ascending c Prod.fst (t.values.map entry) := by
  rw [Ordered, Ascending, List.pairwise_map]
  rfl

theorem ordered_of_entries {c : Comparator (List UInt8)}
    (h : u.values.map entry = t.values.map entry) (ht : Ordered c RbtData.key t) :
    Ordered c RbtData.key u := by
  rw [ordered_iff_entries] at ht ⊢
  rwa [h]

theorem Seated.node_eq (h : Seated tree (join s t u x d) fs) :
    tree.nodes x = some (link s t.addr u.addr (parentOf fs) d) := by
  cases fs with
  | nil => exact h.placed_top.node_eq
  | cons f fs => exact h.placed.node_eq

theorem finishAdd_red (h : Seated tree (join s t u x d) fs) (hd : d.color = .red) (rc : ℤ) :
    finishAdd readd tree x rc = settle readd tree x rc := by
  simp [finishAdd, h.node_eq, hd]

/-- The cases for a red node repair the tree above it, with whatever keys they add again. -/
theorem settle_repairs [DecidableEq V] (c : Comparator (List UInt8)) :
    ∀ (fuel : ℕ) (mem : ℕ → Bool) (tree : Rbt V) (fs : List (Frame (RbtData V))) (s : Side)
      (t u : PTree (RbtData V)) (x : Addr) (d : RbtData V) (rc : ℤ),
      fs.length ≤ fuel → Seated tree (join s t u x d) fs → Whole (plug (join s t u x d) fs) →
      Ordered c RbtData.key (plug (join s t u x d) fs) →
      ∃ tree' T, settle (addLoop c.cmp fuel mem) tree x rc = some (tree', rc) ∧
        Represents tree' T ∧ SameLog tree tree' ∧ Repairs mem (join s t u x d) fs T := by
  intro fuel
  induction fuel with
  | zero =>
      intro mem tree fs s t u x d rc hle h _ _
      obtain rfl := List.eq_nil_of_length_eq_zero (Nat.le_zero.mp hle)
      obtain ⟨tree', hrun, h', hlog⟩ := settle_top h rc
      exact ⟨tree', _, hrun, h', hlog, .top mem _⟩
  | succ fuel ih =>
      intro mem tree fs s t u x d rc hle h hwhole hord
      match fs, hle, h, hwhole, hord with
      | [], _, h, _, _ =>
          obtain ⟨tree', hrun, h', hlog⟩ := settle_top h rc
          exact ⟨tree', _, hrun, h', hlog, .top mem _⟩
      | [f], _, h, _, _ =>
          exact ⟨tree, _, settle_no_grandparent h.placed rc, represents_plug.mpr h.placed,
            ⟨rfl, rfl⟩, .settled mem _ f [] (Or.inr rfl)⟩
      | f :: g :: fs, hle, h, hwhole, hord =>
          have h := h.placed
          by_cases hf : f.data.color = .black
          · exact ⟨tree, _, settle_black h hf rc, represents_plug.mpr h, ⟨rfl, rfl⟩,
              .settled mem _ f _ (Or.inl hf)⟩
          have hf := Color.eq_red_of_ne hf
          cases hg : colorAt g.sibling with
          | black =>
              rcases Side.eq_or_eq_other g.side f.side with hside | hside
              · obtain ⟨tree', hrun, h', hlog⟩ := settle_outer h hf hg hside rc
                exact ⟨tree', _, hrun, h', hlog, .outer mem _ f g fs hf hg hside⟩
              · obtain ⟨a, b, hjoin⟩ := exists_join_side s t u x d g.side
                rw [hjoin] at h ⊢
                obtain ⟨tree', hrun, h', hlog⟩ := settle_inner h hf hg hside rc
                exact ⟨tree', _, hrun, h', hlog, .inner mem a b x d f g fs hf hg hside⟩
          | red =>
              have hentries : ∀ a, (plug (recoloured a (join s t u x d) f g) fs).values.map entry =
                  (plug (join s t u x d) (f :: g :: fs)).values.map entry := fun a =>
                map_values_plug (entries_recoloured a) fs
              have habove : Whole (join g.side (join f.side (join s t u x d) f.sibling f.addr f.data)
                  g.sibling g.addr g.data) := whole_plug hwhole
              have hgkey : g.data.key.length = g.data.klen := (whole_join.mp habove).2.1
              obtain ⟨nodes₁, h₁, hrun⟩ :=
                settle_recolour (addLoop c.cmp (fuel + 1) mem) h hf hg hgkey rc
              have hrep₁ : Represents { tree with nodes := nodes₁ } _ := represents_plug.mpr h₁
              by_cases hmem : mem 0 = true ∧ mem 1 = true
              · obtain ⟨tree₂, hseated, hlog₂, hrun₂⟩ := addLoop_granted c.cmp fuel hmem hrep₁
                  (whole_of_entries (hentries _) hwhole) (plug_ne_leaf (join_ne_leaf _ _ _ _ _) fs)
                  g.data.key g.data.value
                -- the grandparent has its key, and is replaced by the fresh node
                have hseek : seek (fun d => c.cmp d.key g.data.key)
                    (plug (recoloured g.addr (join s t u x d) f g) fs) [] =
                      (recoloured g.addr (join s t u x d) f g, fs) :=
                  seek_node (ordered_of_entries (hentries _) hord) (c.self_eq_zero g.data.key)
                rw [hseek] at hseated hlog₂ hrun₂
                dsimp only at hseated hlog₂ hrun₂
                rw [freedBy_recoloured] at hlog₂
                rw [recoloured, withNew_join, color_paint, paint_newData hgkey] at hseated
                rw [finishAdd_red hseated rfl] at hrun₂
                obtain ⟨tree', T, hrun', h', hlog, hrep⟩ := ih (fun i => mem (i + 2)) tree₂ fs _ _ _ _ _ _
                  (Nat.le_of_lt (Nat.lt_of_succ_lt_succ hle)) hseated
                  (whole_of_entries (hentries _) hwhole) (ordered_of_entries (hentries _) hord)
                refine ⟨tree', T, ?_, h', ⟨hlog.1.trans hlog₂.1, hlog.2.trans hlog₂.2⟩,
                  .recolour mem _ T f g fs _ hf hg hmem hrep⟩
                rw [hrun, hrun₂, hrun']
                rfl
              · obtain ⟨nodes₂, hrun₂, hcells⟩ := addLoop_refused c.cmp fuel hmem
                  { tree with nodes := nodes₁ } g.data.key g.data.value
                refine ⟨{ tree with nodes := nodes₂ }, _, ?_, ⟨hcells.trans hrep₁.cells,
                  hrep₁.root_eq⟩, ⟨rfl, rfl⟩, .abandon mem _ f g fs hf hg hmem⟩
                rw [hrun, hrun₂]
                rfl

/-! ## The whole call -/

/-- What an addition makes of the tree with the new node: a black node has taken the place of
another one, a red one is followed by a repair. -/
def Finishes (mem : ℕ → Bool) (t : PTree (RbtData V)) (fs : List (Frame (RbtData V)))
    (T : PTree (RbtData V)) : Prop :=
  colorAt t = .black ∧ T = plug t fs ∨ colorAt t = .red ∧ Repairs mem t fs T

theorem Finishes.entries_eq {mem : ℕ → Bool} (h : Finishes mem t fs T) :
    T.values.map entry = (plug t fs).values.map entry := by
  rcases h with ⟨-, rfl⟩ | ⟨-, h⟩
  · rfl
  · exact h.entries_eq

theorem finishAdd_black (h : Seated tree (join s t u x d) fs) (hd : d.color = .black) (rc : ℤ) :
    ∃ tree', finishAdd readd tree x rc = some (tree', 1) ∧
      Represents tree' (plug (join s t u x d) fs) ∧ SameLog tree tree' := by
  have hx := h.node_eq
  cases fs with
  | nil =>
      have h' := h.placed_top
      rw [addr_join] at h'
      refine ⟨{ tree with root := some x }, ?_, represents_plug.mpr h', rfl, rfl⟩
      simp [finishAdd, hx, hd]
  | cons f fs =>
      refine ⟨tree, ?_, represents_plug.mpr h.placed, rfl, rfl⟩
      simp [finishAdd, hx, hd]

theorem finishAdd_spec [DecidableEq V] (c : Comparator (List UInt8)) (fuel : ℕ)
    (mem : ℕ → Bool) (hle : fs.length ≤ fuel) (h : Seated tree t fs) (haddr : t.addr = some x)
    (hwhole : Whole (plug t fs)) (hord : Ordered c RbtData.key (plug t fs)) (rc : ℤ) :
    ∃ tree' T, finishAdd (addLoop c.cmp fuel mem) tree x rc =
        some (tree', if colorAt t = .black then 1 else rc) ∧ Represents tree' T ∧
      SameLog tree tree' ∧ Finishes mem t fs T := by
  obtain ⟨t, u, d, rfl⟩ := exists_join .left haddr
  rw [colorAt, rootColor_join]
  cases hd : d.color with
  | black =>
      obtain ⟨tree', hrun, h', hlog⟩ := finishAdd_black h hd rc
      exact ⟨tree', _, hrun, h', hlog, Or.inl ⟨rootColor_join.trans hd, rfl⟩⟩
  | red =>
      obtain ⟨tree', T, hrun, h', hlog, hrep⟩ :=
        settle_repairs c fuel mem tree fs .left t u x d rc hle h hwhole hord
      rw [← finishAdd_red h hd] at hrun
      exact ⟨tree', T, hrun, h', hlog, Or.inr ⟨rootColor_join.trans hd, hrep⟩⟩

/-- The place that the search for a key leads to. -/
abbrev place (c : Comparator (List UInt8)) (T : PTree (RbtData V)) (key : List UInt8) :
    PTree (RbtData V) × List (Frame (RbtData V)) := seek (fun d => c.cmp d.key key) T []

/-- With the new node the tree stores the new entry under its key. -/
theorem withNew_entries {c : Comparator (List UInt8)} (hord : Ordered c RbtData.key T)
    (new : Addr) (dn : RbtData V) :
    (plug (withNew new dn (place c T dn.key).1) (place c T dn.key).2).values.map entry =
      setKey c Prod.fst dn.entry (T.values.map entry) := by
  obtain ⟨p, hp⟩ : ∃ p, place c T dn.key = p := ⟨_, rfl⟩
  have hplug : plug p.1 p.2 = T := hp ▸ plug_seek T []
  have haround : Around c RbtData.key dn.key p.2 := by
    have hnil : Around c RbtData.key dn.key ([] : List (Frame (RbtData V))) :=
      fun _ hf => absurd hf List.not_mem_nil
    have hwhole : Ordered c RbtData.key (plug T []) := hord
    exact hp ▸ around_seek hwhole hnil
  have hcases := seek_cases (c := fun d : RbtData V => c.cmp d.key dn.key) T []
  obtain ⟨A, B, hAB⟩ := exists_values_plug p.2
  rw [← hplug] at hord
  rw [show seek (fun d : RbtData V => c.cmp d.key dn.key) T [] = p from hp] at hcases
  rw [hp]
  have hfst : ∀ e : RbtData V, Prod.fst e.entry = e.key := fun _ => rfl
  have hset : ∀ (e : RbtData V) (A M B : List (RbtData V)), e.entry = dn.entry →
      Ascending c RbtData.key (A ++ e :: B) → (∀ y ∈ M, c.cmp y.key e.key = 0) →
      (A ++ e :: B).map entry = setKey c Prod.fst dn.entry ((A ++ (M ++ B)).map entry) := by
    intro e A M B he hasc hM
    have hmap : (setKey c RbtData.key e (A ++ (M ++ B))).map entry =
        setKey c Prod.fst e.entry ((A ++ (M ++ B)).map entry) := map_setKey hfst e _
    rw [setKey_of_ascending hasc hM, he] at hmap
    exact hmap
  rcases hcases with hleaf | ⟨l, y, d, r, hnode, hzero⟩
  · rw [hleaf] at hplug hord ⊢
    have hnew : Ordered c RbtData.key (plug (withNew new dn .leaf) p.2) := by
      refine (ordered_plug _ _).mpr ⟨List.pairwise_singleton _ _, ((ordered_plug _ _).mp hord).2.1,
        fun y hy => ?_⟩
      rw [List.mem_singleton.mp hy]
      exact haround
    rw [Ordered, hAB] at hnew
    rw [← hplug, hAB, hAB]
    exact hset dn A [] B rfl hnew fun y hy => absurd hy List.not_mem_nil
  · rw [hnode] at hplug hord ⊢
    have hold : Ascending c RbtData.key ((A ++ l.values) ++ d :: (r.values ++ B)) := by
      have hvalues := hAB (.node l y d r)
      rw [values, List.append_assoc, List.cons_append, ← List.append_assoc] at hvalues
      exact hvalues ▸ hord
    rw [← hplug, hAB, hAB, withNew, values, values]
    have hkey : c.cmp (dn.paint d.color).key d.key = 0 := c.zero_comm.mp hzero
    have hlist := hset (dn.paint d.color) (A ++ l.values) [d] (r.values ++ B) rfl
      (ascending_exchange hold hkey) fun y hy => by rwa [List.mem_singleton.mp hy]
    simpa only [List.append_assoc, List.cons_append, List.nil_append] using hlist

/-- The entry of a key that is added. -/
def newEntry (key : List UInt8) (value : Option V) : List UInt8 × ℕ × Option V :=
  (key, key.length, value)

/-- A tree that stores what another one does, and a new entry besides. -/
theorem whole_of_setKey {c : Comparator (List UInt8)} {key : List UInt8} {value : Option V}
    (h : u.values.map entry = setKey c Prod.fst (newEntry key value) (t.values.map entry))
    (ht : Whole t) : Whole u := by
  intro d hd
  have hmem : d.entry ∈ u.values.map entry := List.mem_map_of_mem hd
  rw [h] at hmem
  rcases mem_setKey hmem with heq | hmem
  · have hkey : d.key = key := congrArg Prod.fst heq
    have hklen : d.klen = key.length := congrArg (fun e => e.2.1) heq
    rw [hkey, hklen]
  · obtain ⟨e, he, heq⟩ := List.mem_map.mp hmem
    have hlen := ht e he
    cases d
    cases e
    cases heq
    exact hlen

/-- A refused addition leaves the cells as they were. -/
theorem rbtAdd_refused [DecidableEq V] (c : Comparator (List UInt8)) {mem : ℕ → Bool}
    (hmem : ¬ (mem 0 = true ∧ mem 1 = true)) (h : Represents tree T) (key : List UInt8)
    (value : Option V) :
    ∃ tree', rbtAdd c.cmp mem tree key value = some (tree', -1) ∧ Represents tree' T := by
  obtain ⟨nodes', hrun, hcells⟩ := addLoop_refused c.cmp tree.nodes.brk hmem tree key value
  exact ⟨_, hrun, hcells.trans h.cells, h.root_eq⟩

/-- An addition that has its node ends, whatever becomes of the repair, and releases the
value that was there. -/
theorem rbtAdd_releases [DecidableEq V] (c : Comparator (List UInt8)) {mem : ℕ → Bool}
    (hmem : mem 0 = true ∧ mem 1 = true) (h : Represents tree T) (hwhole : Whole T)
    (hord : Ordered c RbtData.key T) (key : List UInt8) (value : Option V) :
    ∃ tree' T', rbtAdd c.cmp mem tree key value = some (tree', addedRc (place c T key).1) ∧
      Represents tree' T' ∧ (tree'.freeValueCb = tree.freeValueCb ∧
        tree'.freed = freedBy tree (newData key value) (place c T key).1) ∧
      Finishes (fun i => mem (i + 2)) (withNew tree.nodes.brk (newData key value)
        (place c T key).1) (place c T key).2 T' := by
  by_cases hT : T = .leaf
  · subst hT
    have hroot : tree.root = none := h.root_eq
    have hcells : (tree.nodes.alloc (⟨none, none, none, newData key value⟩ : RbtNode V)).1.cells =
        {(tree.nodes.brk, ⟨none, none, none, newData key value⟩)} + 0 := by
      rw [Heap.cells_alloc, h.cells]
      rfl
    obtain ⟨nodes', hpaint, h'⟩ := Heap.modify_of_cells (·.mapData (·.paint .black)) hcells
    refine ⟨{ tree with nodes := nodes', root := some tree.nodes.brk },
      .node .leaf tree.nodes.brk ((newData key value).paint .black) .leaf, ?_, ⟨?_, rfl⟩,
      ⟨rfl, rfl⟩, Or.inr ⟨rfl, .top _ (.node .leaf tree.nodes.brk (newData key value) .leaf)⟩⟩
    · have hpaint' : paint (tree.nodes.alloc (⟨none, none, none,
          ⟨.red, key, key.length, value⟩⟩ : RbtNode V)).1 .black (some tree.nodes.brk) =
            some nodes' := hpaint
      simp [rbtAdd, addLoop, hmem.1, hmem.2, hroot, hpaint', seek, addedRc]
    · rw [h', PTree.cells, cells_leaf, add_zero, add_zero]
      rfl
  · obtain ⟨tree₁, hseated, hlog₁, hrun₁⟩ :=
      addLoop_granted c.cmp tree.nodes.brk hmem h hwhole hT key value
    have hentries := withNew_entries hord tree.nodes.brk (newData key value)
    have hle : (place c T key).2.length ≤ tree.nodes.brk := by
      have hplug : plug (place c T key).1 (place c T key).2 = T := plug_seek T []
      have hlen := length_le_height_plug (place c T key).1 (place c T key).2
      rw [hplug] at hlen
      exact (Nat.le_add_left _ _).trans
        (hlen.trans ((Nat.le_add_right _ _).trans h.placed.height_le_brk))
    obtain ⟨tree', T', hrun, h', hlog, hfinish⟩ := finishAdd_spec c _ (fun i => mem (i + 2)) hle hseated
      (addr_withNew _ _ _) (whole_of_setKey hentries hwhole)
      (ordered_iff_entries.mpr (hentries ▸ ascending_setKey (ordered_iff_entries.mp hord) _))
      (addedRc (place c T key).1)
    refine ⟨tree', T', ?_, h', ⟨hlog.1.trans hlog₁.1, hlog.2.trans hlog₁.2⟩, hfinish⟩
    have hrc : (if colorAt (withNew tree.nodes.brk (newData key value) (place c T key).1) = .black
        then 1 else addedRc (place c T key).1) = addedRc (place c T key).1 := by
      cases (place c T key).1 with
      | leaf => rfl
      | node l y d r => exact ite_self 1
    rw [hrc] at hrun
    exact hrun₁.trans hrun

/-- What an addition that has its node leaves, apart from what it releases. -/
theorem rbtAdd_granted [DecidableEq V] (c : Comparator (List UInt8)) {mem : ℕ → Bool}
    (hmem : mem 0 = true ∧ mem 1 = true) (h : Represents tree T) (hwhole : Whole T)
    (hord : Ordered c RbtData.key T) (key : List UInt8) (value : Option V) :
    ∃ tree' T', rbtAdd c.cmp mem tree key value = some (tree', addedRc (place c T key).1) ∧
      Represents tree' T' ∧
      Finishes (fun i => mem (i + 2)) (withNew tree.nodes.brk (newData key value)
        (place c T key).1) (place c T key).2 T' := by
  obtain ⟨tree', T', hrun, h', -, hfinish⟩ := rbtAdd_releases c hmem h hwhole hord key value
  exact ⟨tree', T', hrun, h', hfinish⟩

/-- What is stored after an addition. -/
theorem Finishes.entries_setKey {c : Comparator (List UInt8)} {mem : ℕ → Bool}
    {T' : PTree (RbtData V)} {key : List UInt8} {value : Option V}
    (h : Finishes mem (withNew new (newData key value) (place c T key).1) (place c T key).2 T')
    (hord : Ordered c RbtData.key T) :
    T'.values.map entry = setKey c Prod.fst (newEntry key value) (T.values.map entry) :=
  h.entries_eq.trans (withNew_entries hord new (newData key value))

end RbTree
end LibHL
