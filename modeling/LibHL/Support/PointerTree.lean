import LibHL.Support.HeapCells
import Mathlib.Tactic.Abel

/-!
# Binary trees in a heap

A binary search tree of the source is a web of nodes with pointers to two children and
to the parent.  An addressed tree says which web: it determines the cells that the tree
occupies, for a given parent pointer of its root.  A position in a tree is a subtree
together with the frames on the way up to the root, and code that works around a node
is followed by splitting the tree there.

Everything the source does on the left it does again on the right, with the sides
exchanged, so definitions and lemmas take the side as a parameter.
-/

namespace LibHL

/-- The side of a node that a child is on. -/
inductive Side where
  | left
  | right
  deriving DecidableEq

namespace Side

/-- The opposite side. -/
def other : Side → Side
  | left => right
  | right => left

@[simp] theorem other_other (s : Side) : s.other.other = s := by
  cases s <;> rfl

theorem other_ne (s : Side) : s.other ≠ s := by
  cases s <;> decide

theorem eq_or_eq_other (s f : Side) : f = s ∨ f = s.other := by
  cases s <;> cases f <;> decide

end Side

/-- A node with its links and whatever else it stores. -/
structure LinkedNode (α : Type*) where
  left : Option Addr
  right : Option Addr
  parent : Option Addr
  data : α
  deriving DecidableEq

namespace LinkedNode

variable {α : Type*}

/-- The child on a side. -/
def child (n : LinkedNode α) : Side → Option Addr
  | .left => n.left
  | .right => n.right

/-- Exchange the child on a side. -/
def setChild (n : LinkedNode α) (s : Side) (c : Option Addr) : LinkedNode α :=
  match s with
  | .left => { n with left := c }
  | .right => { n with right := c }

/-- Exchange the parent. -/
def setParent (n : LinkedNode α) (p : Option Addr) : LinkedNode α := { n with parent := p }

/-- Change what the node stores. -/
def mapData (n : LinkedNode α) (f : α → α) : LinkedNode α := { n with data := f n.data }

/-- The side that a child is found on: `s` if it is there, the other side if not. -/
def sideOf (n : LinkedNode α) (s : Side) (c : Option Addr) : Side :=
  if n.child s = c then s else s.other

/-- The node with child `c` on side `s` and child `d` on the other side. -/
def link (s : Side) (c d p : Option Addr) (x : α) : LinkedNode α :=
  match s with
  | .left => ⟨c, d, p, x⟩
  | .right => ⟨d, c, p, x⟩

section Link

variable (s : Side) (c d p q : Option Addr) (x : α)

theorem link_other : link s.other c d p x = link s d c p x := by
  cases s <;> rfl

@[simp] theorem child_link : (link s c d p x).child s = c := by
  cases s <;> rfl

@[simp] theorem child_other_link : (link s c d p x).child s.other = d := by
  cases s <;> rfl

@[simp] theorem parent_link : (link s c d p x).parent = p := by
  cases s <;> rfl

@[simp] theorem data_link : (link s c d p x).data = x := by
  cases s <;> rfl

@[simp] theorem setChild_link : (link s c d p x).setChild s q = link s q d p x := by
  cases s <;> rfl

@[simp] theorem setChild_other_link :
    (link s c d p x).setChild s.other q = link s c q p x := by
  cases s <;> rfl

@[simp] theorem setParent_link : (link s c d p x).setParent q = link s c d q x := by
  cases s <;> rfl

@[simp] theorem mapData_link (f : α → α) :
    (link s c d p x).mapData f = link s c d p (f x) := by
  cases s <;> rfl

end Link

theorem sideOf_link {s : Side} {c d : Option Addr} (hne : d ≠ c) (p : Option Addr) (x : α)
    (first : Side) : (link s c d p x).sideOf first c = s := by
  rcases Side.eq_or_eq_other first s with rfl | rfl
  · rw [sideOf, child_link, if_pos rfl]
  · rw [link_other, sideOf, child_link, if_neg hne]

end LinkedNode

open LinkedNode

/-- A binary tree whose nodes have addresses. -/
inductive PTree (α : Type*) where
  | leaf
  | node (l : PTree α) (a : Addr) (x : α) (r : PTree α)
  deriving DecidableEq

namespace PTree

variable {α β : Type*}

/-- The pointer to the root. -/
def addr : PTree α → Option Addr
  | leaf => none
  | node _ a _ _ => some a

/-- The tree with subtree `t` on side `s` of its root and `u` on the other side. -/
def join (s : Side) (t u : PTree α) (a : Addr) (x : α) : PTree α :=
  match s with
  | .left => node t a x u
  | .right => node u a x t

/-- The subtree on a side. -/
def sub (s : Side) : PTree α → PTree α
  | leaf => leaf
  | node l _ _ r =>
      match s with
      | .left => l
      | .right => r

/-- What the nodes store, from left to right. -/
def values : PTree α → List α
  | leaf => []
  | node l _ x r => l.values ++ x :: r.values

/-- The number of nodes. -/
def size : PTree α → ℕ
  | leaf => 0
  | node l _ _ r => l.size + r.size + 1

/-- The number of nodes on a longest path down. -/
def height : PTree α → ℕ
  | leaf => 0
  | node l _ _ r => max l.height r.height + 1

/-- The cells that the tree occupies when its root has parent `p`. -/
def cells : Option Addr → PTree α → Multiset (Addr × LinkedNode α)
  | _, leaf => 0
  | p, node l a x r => {(a, ⟨l.addr, r.addr, p, x⟩)} + (cells (some a) l + cells (some a) r)

section Join

variable (s : Side) (t u : PTree α) (a : Addr) (x : α)

theorem join_other : join s.other t u a x = join s u t a x := by
  cases s <;> rfl

@[simp] theorem addr_join : (join s t u a x).addr = some a := by
  cases s <;> rfl

theorem join_ne_leaf : join s t u a x ≠ leaf := by
  cases s <;> exact nofun

@[simp] theorem size_join : (join s t u a x).size = t.size + u.size + 1 := by
  cases s
  · rfl
  · rw [join, size, Nat.add_comm u.size]

@[simp] theorem height_join : (join s t u a x).height = max t.height u.height + 1 := by
  cases s
  · rfl
  · rw [join, height, max_comm]

@[simp] theorem sub_join : (join s t u a x).sub s = t := by
  cases s <;> rfl

@[simp] theorem sub_other_join : (join s t u a x).sub s.other = u := by
  cases s <;> rfl

theorem node_eq_join (l : PTree α) (a : Addr) (x : α) (r : PTree α) (s : Side) :
    ∃ t u, node l a x r = join s t u a x := by
  cases s
  · exact ⟨l, r, rfl⟩
  · exact ⟨r, l, rfl⟩

theorem exists_join_side (s' : Side) : ∃ v w, join s t u a x = join s' v w a x := by
  cases s
  · exact node_eq_join t a x u s'
  · exact node_eq_join u a x t s'

theorem cells_join (p : Option Addr) :
    cells p (join s t u a x) = {(a, link s t.addr u.addr p x)} +
      (cells (some a) t + cells (some a) u) := by
  cases s
  · rfl
  · rw [join, cells, link, add_comm (cells (some a) u)]

end Join

@[simp] theorem addr_leaf : (leaf : PTree α).addr = none := rfl

@[simp] theorem cells_leaf (p : Option Addr) : cells p (leaf : PTree α) = 0 := rfl

theorem addr_eq_none {t : PTree α} (h : t.addr = none) : t = leaf := by
  cases t with
  | leaf => rfl
  | node => cases h

theorem exists_join (s : Side) {t : PTree α} {a : Addr} (h : t.addr = some a) :
    ∃ u v x, t = join s u v a x := by
  cases t with
  | leaf => cases h
  | node l b x r =>
      cases h
      cases s
      · exact ⟨l, r, x, rfl⟩
      · exact ⟨r, l, x, rfl⟩

theorem exists_join_of_height (s : Side) {t : PTree α} (h : 0 < t.height) :
    ∃ u v a x, t = join s u v a x := by
  cases t with
  | leaf => exact absurd h (Nat.lt_irrefl 0)
  | node l a x r =>
      obtain ⟨u, v, y, heq⟩ := exists_join s (t := node l a x r) rfl
      exact ⟨u, v, a, y, heq⟩

/-- Induction over a tree, with the subtrees named by their sides. -/
theorem induct_sides {P : PTree α → Prop} (hleaf : P leaf)
    (hjoin : ∀ l a x r, (∀ s t u, node l a x r = join s t u a x → P t) → P (node l a x r))
    (t : PTree α) : P t := by
  induction t with
  | leaf => exact hleaf
  | node l a x r ihl ihr =>
      refine hjoin l a x r ?_
      intro s t u heq
      cases s with
      | left =>
          cases heq
          exact ihl
      | right =>
          cases heq
          exact ihr

theorem values_rotate (s : Side) (t u v : PTree α) (a b : Addr) (x y : α) :
    (join s (join s t u a x) v b y).values = (join s t (join s.other v u b y) a x).values := by
  cases s <;> simp [join, values, Side.other]

theorem height_le_size (t : PTree α) : t.height ≤ t.size := by
  induction t with
  | leaf => exact le_refl _
  | node l a x r ihl ihr =>
      rw [height, size]
      omega

theorem length_values (t : PTree α) : t.values.length = t.size := by
  induction t with
  | leaf => rfl
  | node l a x r ihl ihr =>
      rw [values, List.length_append, List.length_cons, ihl, ihr, size]
      rfl

theorem card_cells (t : PTree α) : ∀ p, (cells p t).card = t.size := by
  induction t with
  | leaf => exact fun _ => rfl
  | node l a x r ihl ihr =>
      intro p
      rw [cells, Multiset.card_add, Multiset.card_add, Multiset.card_singleton, ihl, ihr,
        size, Nat.add_comm]

theorem size_le_brk {h : Heap (LinkedNode α)} {p : Option Addr} {t : PTree α}
    {s : Multiset (Addr × LinkedNode α)} (hs : h.cells = cells p t + s) :
    t.size ≤ h.brk := by
  refine le_trans ?_ h.card_cells_le_brk
  rw [hs, Multiset.card_add, card_cells]
  exact Nat.le_add_right _ _

theorem parent_of_mem_cells {t : PTree α} : ∀ {p : Option Addr} {a : Addr}
    {n : LinkedNode α}, (a, n) ∈ cells p t →
      t.addr = some a ∧ n.parent = p ∨ n.parent.isSome := by
  induction t with
  | leaf => exact fun h => absurd h (Multiset.notMem_zero _)
  | node l b x r ihl ihr =>
      intro p a n h
      rw [cells, Multiset.mem_add, Multiset.mem_add, Multiset.mem_singleton] at h
      rcases h with heq | hl | hr
      · cases heq
        exact Or.inl ⟨rfl, rfl⟩
      · refine Or.inr ((ihl hl).elim ?_ id)
        rintro ⟨-, hparent⟩
        rw [hparent]
        rfl
      · refine Or.inr ((ihr hr).elim ?_ id)
        rintro ⟨-, hparent⟩
        rw [hparent]
        rfl

/-- In a heap that is a tree, the root is the node without parent. -/
theorem parent_eq_none_iff {h : Heap (LinkedNode α)} {t : PTree α}
    (hs : h.cells = cells none t) {a : Addr} {n : LinkedNode α} (ha : h a = some n) :
    n.parent = none ↔ t.addr = some a := by
  constructor
  · intro hparent
    rw [← Heap.mem_cells, hs] at ha
    rcases parent_of_mem_cells ha with ⟨haddr, -⟩ | hsome
    · exact haddr
    · rw [hparent] at hsome
      cases hsome
  · intro haddr
    obtain ⟨u, v, x, rfl⟩ := exists_join .left haddr
    rw [cells_join] at hs
    rw [Heap.eq_some_of_cells hs] at ha
    cases ha
    rfl

/-- A cell of a tree is the root, or it is a child of the node that it names as its
parent. -/
theorem child_of_mem_cells {t : PTree α} : ∀ {p : Option Addr} {a : Addr}
    {n : LinkedNode α}, (a, n) ∈ cells p t →
      (t.addr = some a ∧ n.parent = p) ∨
        ∃ b m, n.parent = some b ∧ (b, m) ∈ cells p t ∧ (m.left = some a ∨ m.right = some a) := by
  induction t with
  | leaf => exact fun h => absurd h (Multiset.notMem_zero _)
  | node l b x r ihl ihr =>
      intro p a n h
      have hroot : (b, (⟨l.addr, r.addr, p, x⟩ : LinkedNode α)) ∈ cells p (node l b x r) :=
        Multiset.mem_add.mpr (Or.inl (Multiset.mem_singleton_self _))
      rw [cells, Multiset.mem_add, Multiset.mem_add, Multiset.mem_singleton] at h
      rcases h with heq | hl | hr
      · cases heq
        exact Or.inl ⟨rfl, rfl⟩
      · rcases ihl hl with ⟨haddr, hparent⟩ | ⟨c, m, hparent, hmem, hchild⟩
        · exact Or.inr ⟨b, _, hparent, hroot, Or.inl haddr⟩
        · refine Or.inr ⟨c, m, hparent, ?_, hchild⟩
          exact Multiset.mem_add.mpr (Or.inr (Multiset.mem_add.mpr (Or.inl hmem)))
      · rcases ihr hr with ⟨haddr, hparent⟩ | ⟨c, m, hparent, hmem, hchild⟩
        · exact Or.inr ⟨b, _, hparent, hroot, Or.inr haddr⟩
        · refine Or.inr ⟨c, m, hparent, ?_, hchild⟩
          exact Multiset.mem_add.mpr (Or.inr (Multiset.mem_add.mpr (Or.inr hmem)))

theorem mem_cells_of_addr {t : PTree α} {a : Addr} (h : t.addr = some a) (p : Option Addr) :
    ∃ n, (a, n) ∈ cells p t := by
  obtain ⟨u, v, x, rfl⟩ := exists_join .left h
  rw [cells_join]
  exact ⟨_, Multiset.mem_add.mpr (Or.inl (Multiset.mem_singleton_self _))⟩

theorem addr_ne_of_cells {h : Heap (LinkedNode α)} {a : Addr} {n : LinkedNode α}
    {p : Option Addr} {t : PTree α} {s : Multiset (Addr × LinkedNode α)}
    (hs : h.cells = {(a, n)} + (cells p t + s)) : t.addr ≠ some a := by
  intro haddr
  obtain ⟨m, hm⟩ := mem_cells_of_addr haddr p
  exact Heap.ne_of_cells hs (Multiset.mem_add.mpr (Or.inl hm)) rfl

end PTree

open PTree

variable {α : Type*}

/-! ## Changing the parent of a subtree -/

/-- `if (c) c->parent = p`. -/
def setParentOf (h : Heap (LinkedNode α)) (c p : Option Addr) :
    Option (Heap (LinkedNode α)) :=
  match c with
  | none => some h
  | some a => h.modify a (·.setParent p)

theorem setParentOf_of_cells {h : Heap (LinkedNode α)} {p : Option Addr} {t : PTree α}
    {s : Multiset (Addr × LinkedNode α)} (hs : h.cells = t.cells p + s) (q : Option Addr) :
    ∃ h', setParentOf h t.addr q = some h' ∧ h'.cells = t.cells q + s := by
  cases t with
  | leaf => exact ⟨h, rfl, hs⟩
  | node l a x r =>
      rw [PTree.cells, add_assoc] at hs
      obtain ⟨h', hmod, hs'⟩ := Heap.modify_of_cells (·.setParent q) hs
      exact ⟨h', hmod, hs'.trans (add_assoc _ _ _).symm⟩

/-! ## Positions -/

/-- A node on the way up from a position: the position is below it on `side`. -/
structure Frame (α : Type*) where
  side : Side
  addr : Addr
  data : α
  sibling : PTree α

/-- The innermost node above a position. -/
def parentOf : List (Frame α) → Option Addr
  | [] => none
  | f :: _ => some f.addr

/-- The root of a tree, from the root of the subtree at a position. -/
def rootOf : Option Addr → List (Frame α) → Option Addr
  | c, [] => c
  | _, f :: fs => rootOf (some f.addr) fs

/-- The whole tree. -/
def plug : PTree α → List (Frame α) → PTree α
  | t, [] => t
  | t, f :: fs => plug (join f.side t f.sibling f.addr f.data) fs

/-- The cells around a position where a subtree with root `c` is. -/
def frameCells : Option Addr → List (Frame α) → Multiset (Addr × LinkedNode α)
  | _, [] => 0
  | c, f :: fs =>
      {(f.addr, link f.side c f.sibling.addr (parentOf fs) f.data)} +
        (f.sibling.cells (some f.addr) + frameCells (some f.addr) fs)

@[simp] theorem parentOf_nil : parentOf ([] : List (Frame α)) = none := rfl

@[simp] theorem parentOf_cons (f : Frame α) (fs : List (Frame α)) :
    parentOf (f :: fs) = some f.addr := rfl

@[simp] theorem frameCells_nil (c : Option Addr) :
    frameCells c ([] : List (Frame α)) = 0 := rfl

theorem plug_append (t : PTree α) (fs gs : List (Frame α)) :
    plug t (fs ++ gs) = plug (plug t fs) gs := by
  induction fs generalizing t with
  | nil => rfl
  | cons f fs ih => exact ih _

theorem addr_plug (t : PTree α) (fs : List (Frame α)) :
    (plug t fs).addr = rootOf t.addr fs := by
  induction fs generalizing t with
  | nil => rfl
  | cons f fs ih => rw [plug, ih, addr_join, rootOf]

theorem cells_plug (t : PTree α) (fs : List (Frame α)) :
    (plug t fs).cells none = t.cells (parentOf fs) + frameCells t.addr fs := by
  induction fs generalizing t with
  | nil => rw [plug, frameCells_nil, add_zero, parentOf_nil]
  | cons f fs ih =>
      rw [plug, ih, cells_join, addr_join, frameCells, parentOf_cons]
      abel

/-- The cells at a position, one step further up. -/
theorem cells_add_frameCells (t : PTree α) (f : Frame α) (fs : List (Frame α)) :
    t.cells (parentOf (f :: fs)) + frameCells t.addr (f :: fs) =
      (join f.side t f.sibling f.addr f.data).cells (parentOf fs) +
        frameCells (some f.addr) fs := by
  rw [cells_join, frameCells, parentOf_cons]
  abel

theorem parentOf_append_cons (fs : List (Frame α)) (f : Frame α) (gs : List (Frame α)) :
    ∃ g hs, fs ++ f :: gs = g :: hs ∧ parentOf (fs ++ f :: gs) = some g.addr := by
  cases fs with
  | nil => exact ⟨f, gs, rfl, rfl⟩
  | cons g fs => exact ⟨g, fs ++ f :: gs, rfl, rfl⟩

theorem rootOf_append (c : Option Addr) (fs gs : List (Frame α)) :
    rootOf c (fs ++ gs) = rootOf (rootOf c fs) gs := by
  induction fs generalizing c with
  | nil => rfl
  | cons f fs ih => exact ih _

/-- The cell of a node above a position. -/
theorem mem_frameCells (c : Option Addr) (fs : List (Frame α)) (f : Frame α)
    (gs : List (Frame α)) :
    (f.addr, link f.side (rootOf c fs) f.sibling.addr (parentOf gs) f.data) ∈
      frameCells c (fs ++ f :: gs) := by
  induction fs generalizing c with
  | nil => exact Multiset.mem_add.mpr (Or.inl (Multiset.mem_singleton_self _))
  | cons g fs ih =>
      rw [List.cons_append, frameCells]
      exact Multiset.mem_add.mpr (Or.inr (Multiset.mem_add.mpr (Or.inr (ih _))))

/-- The cells of a subtree at a node above a position. -/
theorem mem_frameCells_sibling {c : Option Addr} {fs gs : List (Frame α)} {f : Frame α}
    {b : Addr × LinkedNode α} (hb : b ∈ f.sibling.cells (some f.addr)) :
    b ∈ frameCells c (fs ++ f :: gs) := by
  induction fs generalizing c with
  | nil => exact Multiset.mem_add.mpr (Or.inr (Multiset.mem_add.mpr (Or.inl hb)))
  | cons g fs ih =>
      rw [List.cons_append, frameCells]
      exact Multiset.mem_add.mpr (Or.inr (Multiset.mem_add.mpr (Or.inr ih)))

theorem exists_mem_frameCells_root (c : Option Addr) (f : Frame α) (fs gs : List (Frame α)) :
    ∃ b n, rootOf c (f :: fs) = some b ∧ (b, n) ∈ frameCells c ((f :: fs) ++ gs) := by
  induction fs generalizing c f with
  | nil =>
      exact ⟨f.addr, _, rfl, Multiset.mem_add.mpr (Or.inl (Multiset.mem_singleton_self _))⟩
  | cons g fs ih =>
      obtain ⟨b, n, hroot, hmem⟩ := ih (some f.addr) g
      refine ⟨b, n, hroot, ?_⟩
      rw [List.cons_append, frameCells]
      exact Multiset.mem_add.mpr (Or.inr (Multiset.mem_add.mpr (Or.inr hmem)))

/-- The node above a position gets another child there. -/
theorem setChild_of_frameCells {h : Heap (LinkedNode α)} {c : Option Addr} {f : Frame α}
    {fs : List (Frame α)} {s : Multiset (Addr × LinkedNode α)}
    (hs : h.cells = s + frameCells c (f :: fs)) (new : Option Addr) :
    ∃ h', h.modify f.addr (·.setChild f.side new) = some h' ∧
      h'.cells = s + frameCells new (f :: fs) := by
  have hs' : h.cells = {(f.addr, link f.side c f.sibling.addr (parentOf fs) f.data)} +
      (s + (f.sibling.cells (some f.addr) + frameCells (some f.addr) fs)) := by
    rw [hs, frameCells]
    exact add_left_comm _ _ _
  obtain ⟨h', hmod, hcells⟩ := Heap.modify_of_cells (·.setChild f.side new) hs'
  refine ⟨h', hmod, ?_⟩
  rw [hcells, setChild_link, frameCells]
  exact add_left_comm _ _ _

theorem frames_lt_brk {h : Heap (LinkedNode α)} {c : Option Addr} (fs : List (Frame α))
    {s : Multiset (Addr × LinkedNode α)} (hs : h.cells = frameCells c fs + s) :
    fs.length ≤ h.brk := by
  have hcard : ∀ (fs : List (Frame α)) c, fs.length ≤ (frameCells c fs).card := by
    intro fs
    induction fs with
    | nil => exact fun _ => Nat.zero_le _
    | cons f fs ih =>
        intro c
        rw [frameCells, Multiset.card_add, Multiset.card_add, Multiset.card_singleton,
          List.length_cons, Nat.add_comm]
        exact Nat.add_le_add_left (le_trans (ih _) (Nat.le_add_left _ _)) 1
  refine le_trans (hcard fs c) (le_trans ?_ h.card_cells_le_brk)
  rw [hs, Multiset.card_add]
  exact Nat.le_add_right _ _

end LibHL
