import LibHL.RbTree.Model
import LibHL.Support.PlacedTree

/-!
# Trees, colours and rotations in the heap

The nodes of a tree of the source are those of an addressed tree.  Painting a node and
rotating at a node are followed cell by cell here; afterwards they are operations on
addressed trees.
-/

namespace LibHL
namespace RbTree

open LinkedNode PTree RbtData

variable {V : Type} {tree : Rbt V} {nodes : Heap (RbtNode V)} {root : Option Addr}
  {t u : PTree (RbtData V)} {f : Frame (RbtData V)} {fs : List (Frame (RbtData V))}
  {rest : Multiset (Addr × RbtNode V)} {s : Side} {a x p : Addr} {d dx dp : RbtData V}

/-- The nodes of a tree are those of an addressed tree, and nothing else is alive. -/
structure Represents (tree : Rbt V) (T : PTree (RbtData V)) : Prop where
  cells : tree.nodes.cells = T.cells none
  root_eq : tree.root = T.addr

theorem represents_plug : Represents tree (plug t fs) ↔
    Placed tree.nodes tree.root t fs 0 := by
  rw [placed_plug, placed_iff]
  exact ⟨fun h => ⟨h.cells, h.root_eq⟩, fun h => ⟨h.1, h.2⟩⟩

theorem Represents.placed {T : PTree (RbtData V)} (h : Represents tree T) :
    Placed tree.nodes tree.root T [] 0 :=
  placed_iff.mpr ⟨h.cells, h.root_eq⟩

theorem represents_rbtCreate (freeValueCb : Bool) (prevnext : ℕ) :
    Represents (rbtCreate freeValueCb prevnext : Rbt V) .leaf :=
  ⟨rfl, rfl⟩

/-! ## Colours -/

@[simp] theorem color_paint (d : RbtData V) (c : Color) : (d.paint c).color = c := rfl

@[simp] theorem key_paint (d : RbtData V) (c : Color) : (d.paint c).key = d.key := rfl

@[simp] theorem entry_paint (d : RbtData V) (c : Color) : (d.paint c).entry = d.entry := rfl

@[simp] theorem paint_paint (d : RbtData V) (c e : Color) : (d.paint c).paint e = d.paint e := rfl

/-- Paint the root. -/
def paintRoot (c : Color) (t : PTree (RbtData V)) : PTree (RbtData V) :=
  t.mapRoot (·.paint c)

@[simp] theorem paintRoot_join (c : Color) :
    paintRoot c (join s t u a d) = join s t u a (d.paint c) := mapRoot_join

@[simp] theorem addr_paintRoot (c : Color) (t : PTree (RbtData V)) :
    (paintRoot c t).addr = t.addr := addr_mapRoot t

/-- The colour of the root. -/
abbrev colorAt (t : PTree (RbtData V)) : Color := rootColor RbtData.color t

theorem colorOf_spec (h : Placed nodes root t fs rest) :
    colorOf nodes t.addr = some (colorAt t) := by
  cases t with
  | leaf => rfl
  | node l a d r =>
      have hnode := h.node_eq (s := .left)
      simp [colorOf, PTree.addr, hnode, colorAt, rootColor]

theorem colorOf_sibling (h : Placed nodes root t (f :: fs) rest) :
    colorOf nodes f.sibling.addr = some (colorAt f.sibling) :=
  colorOf_spec (placed_sibling.mp h)

theorem paint_spec (h : Placed nodes root t fs rest) (c : Color) :
    ∃ nodes', paint nodes c t.addr = some nodes' ∧
      Placed nodes' root (paintRoot c t) fs rest := by
  cases t with
  | leaf => exact ⟨nodes, rfl, h⟩
  | node l a d r => exact h.modify_data (s := .left) (·.paint c)

theorem paint_above (h : Placed nodes root t (f :: fs) rest) (c : Color) :
    ∃ nodes', paint nodes c (some f.addr) = some nodes' ∧
      Placed nodes' root t ({ f with data := f.data.paint c } :: fs) rest := by
  obtain ⟨nodes', hpaint, h'⟩ := (placed_cons.mp h).modify_data (·.paint c)
  exact ⟨nodes', hpaint, placed_cons.mpr h'⟩

theorem paint_sibling (h : Placed nodes root t (f :: fs) rest) (c : Color) :
    ∃ nodes', paint nodes c f.sibling.addr = some nodes' ∧
      Placed nodes' root t ({ f with sibling := paintRoot c f.sibling } :: fs) rest := by
  obtain ⟨nodes', hpaint, h'⟩ := paint_spec (placed_sibling.mp h) c
  refine ⟨nodes', hpaint, placed_sibling.mpr h'⟩

/-! ## Links and rotations -/

/-- A pointer to a node is replaced in the node above. -/
theorem relink_of_cells {n : RbtNode V} {F : Multiset (Addr × RbtNode V)}
    (hs : nodes.cells = {(a, n)} + (F + frameCells (some a) fs)) (up : Option Addr) :
    ∃ nodes', relink nodes (parentOf fs) (some a) up = some nodes' ∧
      nodes'.cells = {(a, n)} + (F + frameCells up fs) := by
  cases fs with
  | nil => exact ⟨nodes, rfl, hs⟩
  | cons f fs =>
      rw [frameCells] at hs
      have hne : f.sibling.addr ≠ some a := by
        have hsplit : nodes.cells = {(a, n)} + (f.sibling.cells (some f.addr) + (F +
            {(f.addr, link f.side (some a) f.sibling.addr (parentOf fs) f.data)} +
              frameCells (some f.addr) fs)) := by
          rw [hs]
          abel
        exact addr_ne_of_cells hsplit
      have hs' : nodes.cells =
          {(f.addr, link f.side (some a) f.sibling.addr (parentOf fs) f.data)} +
            ({(a, n)} + (F + (f.sibling.cells (some f.addr) +
              frameCells (some f.addr) fs))) := by
        rw [hs]
        abel
      obtain ⟨nodes', hmod, h'⟩ :=
        Heap.modify_of_cells (fun p => p.setChild (p.sideOf .left (some a)) up) hs'
      refine ⟨nodes', hmod, ?_⟩
      rw [h', sideOf_link hne, setChild_link, frameCells]
      abel

theorem rotate_spec {near inner outer : PTree (RbtData V)}
    (h : Placed tree.nodes tree.root (join s near (join s inner outer p dp) x dx) fs rest) :
    ∃ nodes' root', rotate s tree x = some { tree with nodes := nodes', root := root' } ∧
      Placed nodes' root' (join s (join s near inner x dx) outer p dp) fs rest := by
  have hx := h.node_eq
  have hs := h.cells_join
  rw [addr_join] at hx
  rw [PTree.cells_join, addr_join] at hs
  have h₀ : tree.nodes.cells = {(x, link s near.addr (some p) (parentOf fs) dx)} +
      ({(p, link s inner.addr outer.addr (some x) dp)} + (inner.cells (some p) +
        (near.cells (some x) + outer.cells (some p) + rest + frameCells (some x) fs))) := by
    rw [hs]
    abel
  have hp : tree.nodes p = some (link s inner.addr outer.addr (some x) dp) := by
    rw [add_left_comm] at h₀
    exact Heap.eq_some_of_cells h₀
  obtain ⟨nodes₁, hmod₁, h₁⟩ := Heap.modify_of_cells (·.setChild s.other inner.addr) h₀
  rw [setChild_other_link, add_left_comm] at h₁
  obtain ⟨nodes₂, hmod₂, h₂⟩ := Heap.modify_of_cells (·.setChild s (some x)) h₁
  have h₂' : nodes₂.cells = inner.cells (some p) +
      ({(x, link s near.addr inner.addr (parentOf fs) dx)} +
        ({(p, link s (some x) outer.addr (some x) dp)} +
          (near.cells (some x) + outer.cells (some p) + rest + frameCells (some x) fs))) := by
    rw [h₂, setChild_link]
    abel
  obtain ⟨nodes₃, hmod₃, h₃⟩ := setParentOf_of_cells h₂' (some x)
  rw [add_left_comm] at h₃
  obtain ⟨nodes₄, hmod₄, h₄⟩ := Heap.modify_of_cells (·.setParent (some p)) h₃
  have h₄' : nodes₄.cells = {(p, link s (some x) outer.addr (some x) dp)} +
      ({(x, link s near.addr inner.addr (some p) dx)} + (inner.cells (some x) +
        (near.cells (some x) + outer.cells (some p) + rest + frameCells (some x) fs))) := by
    rw [h₄, setParent_link]
    abel
  obtain ⟨nodes₅, hmod₅, h₅⟩ := Heap.modify_of_cells (·.setParent (parentOf fs)) h₄'
  have h₅' : nodes₅.cells = {(x, link s near.addr inner.addr (some p) dx)} +
      ({(p, link s (some x) outer.addr (parentOf fs) dp)} + inner.cells (some x) +
        near.cells (some x) + outer.cells (some p) + rest + frameCells (some x) fs) := by
    rw [h₅, setParent_link]
    abel
  obtain ⟨nodes₆, hlink, h₆⟩ := relink_of_cells h₅' (some p)
  refine ⟨nodes₆, if (parentOf fs).isNone then some p else tree.root, ?_, ?_, ?_⟩
  · simp [rotate, hx, hp, hmod₁, hmod₂, hmod₃, hmod₄, hmod₅, hlink]
  · rw [h₆, PTree.cells_join, PTree.cells_join, addr_join, addr_join]
    abel
  · cases fs with
    | nil => rw [addr_join]; rfl
    | cons f fs => exact h.root_eq

end RbTree
end LibHL
