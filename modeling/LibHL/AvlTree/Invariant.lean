import LibHL.AvlTree.Model
import LibHL.Support.PlacedTree

/-!
# Balanced trees and rotations

The tree of the source is an addressed tree at whose nodes the heights are stored.  The
heights are exact, and those of two siblings differ by at most one.  A rotation is
followed cell by cell here; afterwards it is an operation on addressed trees.
-/

namespace LibHL
namespace AvlTree

open LinkedNode PTree AvltData

variable {K V : Type}

section Data

variable (d : AvltData K V) (s : Side) (v w : ℤ)

@[simp] theorem h_setH : (d.setH s v).h s = v := by
  cases s <;> rfl

@[simp] theorem h_other_setH : (d.setH s v).h s.other = d.h s.other := by
  cases s <;> rfl

@[simp] theorem h_setH_other : (d.setH s.other v).h s = d.h s := by
  cases s <;> rfl

@[simp] theorem entry_setH : (d.setH s v).entry = d.entry := by
  cases s <;> rfl

end Data

/-- The height of a tree, as its root has it. -/
def stored : PTree (AvltData K V) → ℤ
  | .leaf => 0
  | .node _ _ d _ => d.height

@[simp] theorem stored_join (s : Side) (t u : PTree (AvltData K V)) (a : Addr)
    (d : AvltData K V) : stored (join s t u a d) = d.height := by
  cases s <;> rfl

/-- Stored heights are exact, and no node is out of balance. -/
def Balanced : PTree (AvltData K V) → Prop
  | .leaf => True
  | .node l _ d r => Balanced l ∧ Balanced r ∧ d.hl = l.height ∧ d.hr = r.height ∧
      l.height ≤ r.height + 1 ∧ r.height ≤ l.height + 1

theorem balanced_join {s : Side} {t u : PTree (AvltData K V)} {a : Addr}
    {d : AvltData K V} :
    Balanced (join s t u a d) ↔ Balanced t ∧ Balanced u ∧ d.h s = t.height ∧
      d.h s.other = u.height ∧ t.height ≤ u.height + 1 ∧ u.height ≤ t.height + 1 := by
  cases s
  · rfl
  · show Balanced u ∧ Balanced t ∧ _ ∧ _ ∧ _ ∧ _ ↔ _
    constructor
    · rintro ⟨hu, ht, hl, hr, h₁, h₂⟩
      exact ⟨ht, hu, hr, hl, h₂, h₁⟩
    · rintro ⟨ht, hu, hl, hr, h₁, h₂⟩
      exact ⟨hu, ht, hr, hl, h₂, h₁⟩

theorem Balanced.stored_eq {t : PTree (AvltData K V)} (h : Balanced t) :
    stored t = t.height := by
  cases t with
  | leaf => rfl
  | node l a d r =>
      obtain ⟨-, -, hl, hr, -⟩ := h
      rw [stored, AvltData.height, hl, hr, PTree.height]
      omega

/-! ## The tree at a position -/

/-- The nodes of a tree that is split at a position, besides some other cells. -/
structure At (tree : Avlt K V) (t : PTree (AvltData K V)) (fs : List (Frame (AvltData K V)))
    (rest : Multiset (Addr × AvltNode K V)) : Prop where
  cells : tree.nodes.cells = t.cells (parentOf fs) + (frameCells t.addr fs + rest)
  root : tree.root = rootOf t.addr fs

theorem at_iff_placed {tree : Avlt K V} {t : PTree (AvltData K V)}
    {fs : List (Frame (AvltData K V))} {rest : Multiset (Addr × AvltNode K V)} :
    At tree t fs rest ↔ Placed tree.nodes tree.root t fs rest :=
  ⟨fun h => ⟨h.cells, h.root⟩, fun h => ⟨h.cells, h.root_eq⟩⟩

/-- The nodes of a tree are those of an addressed tree, and nothing else is alive. -/
def Represents (tree : Avlt K V) (T : PTree (AvltData K V)) : Prop := At tree T [] 0

theorem represents_avltCreate (freeValueCb : Bool) :
    Represents (avltCreate freeValueCb : Avlt K V) .leaf :=
  ⟨rfl, rfl⟩

section Cells

variable {nodes : Heap (AvltNode K V)} {fs : List (Frame (AvltData K V))}
  {rest : Multiset (Addr × AvltNode K V)} {s : Side} {near inner outer : PTree (AvltData K V)}
  {x p : Addr} {dx dp : AvltData K V}

theorem storedHeight_some {a : Addr} {n : AvltNode K V} (hn : nodes a = some n) :
    storedHeight nodes (some a) = some n.data.height := by
  simp [storedHeight, hn]

theorem storedHeight_of_cells {t : PTree (AvltData K V)} {q : Option Addr}
    (hs : nodes.cells = t.cells q + rest) : storedHeight nodes t.addr = some (stored t) := by
  cases t with
  | leaf => rfl
  | node l a d r =>
      rw [PTree.cells, add_assoc] at hs
      exact storedHeight_some (Heap.eq_some_of_cells hs)

/-- The node above a position takes over a height for the side that the position is on. -/
def retarget (v : ℤ) : List (Frame (AvltData K V)) → List (Frame (AvltData K V))
  | [] => []
  | f :: fs => { f with data := f.data.setH f.side v } :: fs

@[simp] theorem parentOf_retarget (v : ℤ) (fs : List (Frame (AvltData K V))) :
    parentOf (retarget v fs) = parentOf fs := by
  cases fs <;> rfl

/-- The nodes that a rotation moves, before the node above takes notice. -/
theorem rotate_of_cells {F : Multiset (Addr × AvltNode K V)} {q : Option Addr}
    (hs : nodes.cells = (join s near (join s inner outer p dp) x dx).cells q + F) :
    ∃ nodes', rotate s nodes x =
        replaceChild s nodes' q x p (dp.setH s (dx.setH s.other (stored inner)).height).height ∧
      nodes'.cells = (join s (join s near inner x (dx.setH s.other (stored inner))) outer p
        (dp.setH s (dx.setH s.other (stored inner)).height)).cells q + F := by
  rw [cells_join, cells_join, addr_join] at hs
  have hx : nodes x = some (link s near.addr (some p) q dx) :=
    Heap.eq_some_of_cells (hs.trans (add_assoc _ _ _))
  have h₀ : nodes.cells = {(p, link s inner.addr outer.addr (some x) dp)} +
      ({(x, link s near.addr (some p) q dx)} + (inner.cells (some p) +
        (near.cells (some x) + outer.cells (some p) + F))) := by
    rw [hs]
    abel
  have hp := Heap.eq_some_of_cells h₀
  obtain ⟨nodes₁, hmod₁, h₁⟩ := Heap.modify_of_cells (·.setChild s (some x)) h₀
  rw [setChild_link, add_left_comm] at h₁
  obtain ⟨nodes₂, hmod₂, h₂⟩ := Heap.modify_of_cells (·.setParent (some p)) h₁
  rw [setParent_link, add_left_comm] at h₂
  obtain ⟨nodes₃, hmod₃, h₃⟩ := Heap.modify_of_cells (·.setParent q) h₂
  rw [setParent_link, add_left_comm] at h₃
  obtain ⟨nodes₄, hmod₄, h₄⟩ := Heap.modify_of_cells (·.setChild s.other inner.addr) h₃
  have h₄' : nodes₄.cells = inner.cells (some p) +
      ({(p, link s (some x) outer.addr q dp)} + ({(x, link s near.addr inner.addr (some p) dx)} +
        (near.cells (some x) + outer.cells (some p) + F))) := by
    rw [h₄, setChild_other_link]
    abel
  obtain ⟨nodes₅, hmod₅, h₅⟩ := setParentOf_of_cells h₄' (some x)
  have hinner := storedHeight_of_cells h₅
  have h₅' : nodes₅.cells = {(x, link s near.addr inner.addr (some p) dx)} +
      ({(p, link s (some x) outer.addr q dp)} + (inner.cells (some x) +
        (near.cells (some x) + outer.cells (some p) + F))) := by
    rw [h₅]
    abel
  obtain ⟨nodes₆, hmod₆, h₆⟩ :=
    Heap.modify_of_cells (·.mapData (·.setH s.other (stored inner))) h₅'
  rw [mapData_link] at h₆
  have hnode := storedHeight_some (Heap.eq_some_of_cells h₆)
  rw [add_left_comm] at h₆
  obtain ⟨nodes₇, hmod₇, h₇⟩ := Heap.modify_of_cells
    (·.mapData (·.setH s (dx.setH s.other (stored inner)).height)) h₆
  rw [mapData_link] at h₇
  have hup := storedHeight_some (Heap.eq_some_of_cells h₇)
  refine ⟨nodes₇, ?_, ?_⟩
  · simp [rotate, hx, hp, hmod₁, hmod₂, hmod₃, hmod₄, hmod₅, hinner, hmod₆, hnode, hmod₇, hup]
  · rw [h₇, cells_join, cells_join, addr_join]
    abel

theorem replaceChild_of_cells {f : Frame (AvltData K V)}
    {F G : Multiset (Addr × AvltNode K V)} {q : Option Addr} {v : ℤ}
    (hne : f.sibling.addr ≠ some x)
    (hs : nodes.cells = F + ({(f.addr, link f.side (some x) f.sibling.addr q f.data)} + G +
      rest)) :
    ∃ nodes', replaceChild s nodes (some f.addr) x p v = some nodes' ∧
      nodes'.cells = F + ({(f.addr, link f.side (some p) f.sibling.addr q
        (f.data.setH f.side v))} + G + rest) := by
  have hs' : nodes.cells = {(f.addr, link f.side (some x) f.sibling.addr q f.data)} +
      (F + G + rest) := by
    rw [hs]
    abel
  obtain ⟨nodes', hmod, h'⟩ := Heap.modify_of_cells (fun n : AvltNode K V =>
    let side := n.sideOf s (some x)
    (n.setChild side (some p)).mapData (·.setH side v)) hs'
  refine ⟨nodes', hmod, ?_⟩
  rw [h']
  dsimp only
  rw [sideOf_link hne, setChild_link, mapData_link]
  abel

theorem rotate_spec
    (hs : nodes.cells = (join s near (join s inner outer p dp) x dx).cells (parentOf fs) +
      (frameCells (some x) fs + rest)) :
    ∃ nodes', rotate s nodes x = some nodes' ∧
      nodes'.cells = (join s (join s near inner x (dx.setH s.other (stored inner))) outer p
          (dp.setH s (dx.setH s.other (stored inner)).height)).cells (parentOf fs) +
        (frameCells (some p) (retarget
          (dp.setH s (dx.setH s.other (stored inner)).height).height fs) + rest) := by
  obtain ⟨nodes₁, hrot, h₁⟩ := rotate_of_cells hs
  cases fs with
  | nil => exact ⟨nodes₁, hrot, h₁⟩
  | cons f fs =>
      have hne : f.sibling.addr ≠ some x := by
        refine addr_ne_of_cells (n := link s near.addr (some p) (some f.addr) dx)
          (p := some f.addr) (s := near.cells (some x) +
            (join s inner outer p dp).cells (some x) +
            {(f.addr, link f.side (some x) f.sibling.addr (parentOf fs) f.data)} +
            frameCells (some f.addr) fs + rest) (hs.trans ?_)
        rw [frameCells, cells_join, parentOf_cons, addr_join]
        abel
      rw [frameCells, parentOf_cons] at h₁
      obtain ⟨nodes₂, hmod, h₂⟩ := replaceChild_of_cells hne h₁
      refine ⟨nodes₂, hrot.trans hmod, ?_⟩
      rw [h₂, retarget, frameCells, parentOf_cons]

end Cells

end AvlTree
end LibHL
