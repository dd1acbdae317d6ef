import LibHL.Support.PointerTree

/-!
# Trees at a place in a heap

A subtree and the frames above it lie in a heap, next to other cells.  The same heap can
be looked at from another place of the tree, and a write at one place is a change of the
addressed tree there.
-/

namespace LibHL

open LinkedNode PTree

namespace PTree

variable {α β : Type*} {s : Side} {t u : PTree α} {a : Addr} {x : α} {f : α → α}

/-- Change what the root stores. -/
def mapRoot (f : α → α) : PTree α → PTree α
  | leaf => leaf
  | node l a x r => node l a (f x) r

@[simp] theorem mapRoot_join : (join s t u a x).mapRoot f = join s t u a (f x) := by
  cases s <;> rfl

@[simp] theorem addr_mapRoot (t : PTree α) : (t.mapRoot f).addr = t.addr := by
  cases t <;> rfl

theorem map_values_mapRoot {g : α → β} (h : ∀ x, g (f x) = g x) (t : PTree α) :
    (t.mapRoot f).values.map g = t.values.map g := by
  cases t with
  | leaf => rfl
  | node l a x r =>
      rw [mapRoot, values, values, List.map_append, List.map_append, List.map_cons,
        List.map_cons, h]

theorem map_values_join {g : α → β} {t' u' : PTree α} {a' : Addr} {x' : α}
    (ht : t'.values.map g = t.values.map g) (hu : u'.values.map g = u.values.map g)
    (hx : g x' = g x) : (join s t' u' a' x').values.map g = (join s t u a x).values.map g := by
  cases s
  · rw [join, join, values, values, List.map_append, List.map_append, List.map_cons,
      List.map_cons, ht, hu, hx]
  · rw [join, join, values, values, List.map_append, List.map_append, List.map_cons,
      List.map_cons, ht, hu, hx]

theorem map_values_plug {g : α → β} {t t' : PTree α}
    (h : t'.values.map g = t.values.map g) (fs : List (Frame α)) :
    (plug t' fs).values.map g = (plug t fs).values.map g := by
  induction fs generalizing t t' with
  | nil => exact h
  | cons f fs ih => exact ih (map_values_join h rfl rfl)

theorem length_le_height_plug (t : PTree α) (fs : List (Frame α)) :
    t.height + fs.length ≤ (plug t fs).height := by
  induction fs generalizing t with
  | nil => exact le_refl _
  | cons f fs ih =>
      have h := ih (join f.side t f.sibling f.addr f.data)
      rw [height_join] at h
      rw [plug, List.length_cons]
      omega

end PTree

variable {α : Type*}

/-- A subtree and the frames above it, with the pointer to the root and besides some other
cells. -/
structure Placed (nodes : Heap (LinkedNode α)) (root : Option Addr) (t : PTree α)
    (fs : List (Frame α)) (rest : Multiset (Addr × LinkedNode α)) : Prop where
  cells : nodes.cells = t.cells (parentOf fs) + (frameCells t.addr fs + rest)
  root_eq : root = rootOf t.addr fs

variable {nodes : Heap (LinkedNode α)} {root : Option Addr} {t u : PTree α} {f : Frame α}
  {fs : List (Frame α)} {rest : Multiset (Addr × LinkedNode α)} {s : Side} {a : Addr} {x : α}

theorem placed_cons : Placed nodes root t (f :: fs) rest ↔
    Placed nodes root (join f.side t f.sibling f.addr f.data) fs rest := by
  have hcells : t.cells (parentOf (f :: fs)) + (frameCells t.addr (f :: fs) + rest) =
      (join f.side t f.sibling f.addr f.data).cells (parentOf fs) +
        (frameCells (join f.side t f.sibling f.addr f.data).addr fs + rest) := by
    rw [← add_assoc, cells_add_frameCells, addr_join, add_assoc]
  have hroot : rootOf (join f.side t f.sibling f.addr f.data).addr fs =
      rootOf t.addr (f :: fs) := by
    rw [addr_join, rootOf]
  constructor
  · rintro ⟨hc, hr⟩
    exact ⟨hc.trans hcells, hr.trans hroot.symm⟩
  · rintro ⟨hc, hr⟩
    exact ⟨hc.trans hcells.symm, hr.trans hroot⟩

theorem placed_plug : Placed nodes root t fs rest ↔ Placed nodes root (plug t fs) [] rest := by
  induction fs generalizing t with
  | nil => exact Iff.rfl
  | cons f fs ih => exact placed_cons.trans ih

theorem placed_append {gs : List (Frame α)} :
    Placed nodes root t (fs ++ gs) rest ↔ Placed nodes root (plug t fs) gs rest := by
  rw [placed_plug, plug_append]
  exact placed_plug.symm

theorem placed_sibling : Placed nodes root t (f :: fs) rest ↔
    Placed nodes root f.sibling (⟨f.side.other, f.addr, f.data, t⟩ :: fs) rest := by
  rw [placed_cons, placed_cons, join_other]

theorem placed_iff : Placed nodes root t [] 0 ↔
    nodes.cells = t.cells none ∧ root = t.addr := by
  constructor
  · rintro ⟨hcells, hroot⟩
    rw [parentOf_nil, frameCells_nil, add_zero, add_zero] at hcells
    exact ⟨hcells, hroot⟩
  · rintro ⟨hcells, hroot⟩
    refine ⟨?_, hroot⟩
    rw [parentOf_nil, frameCells_nil, add_zero, add_zero]
    exact hcells

namespace Placed

/-- The cells, with that of the node at the place first. -/
theorem cells_join (h : Placed nodes root (join s t u a x) fs rest) :
    nodes.cells = {(a, link s t.addr u.addr (parentOf fs) x)} +
      (t.cells (some a) + u.cells (some a) + (frameCells (some a) fs + rest)) := by
  rw [h.cells, PTree.cells_join, addr_join, add_assoc]

theorem node_eq (h : Placed nodes root (join s t u a x) fs rest) :
    nodes a = some (link s t.addr u.addr (parentOf fs) x) :=
  Heap.eq_some_of_cells h.cells_join

theorem above_eq (h : Placed nodes root t (f :: fs) rest) :
    nodes f.addr = some (link f.side t.addr f.sibling.addr (parentOf fs) f.data) :=
  (placed_cons.mp h).node_eq

theorem sibling_ne (h : Placed nodes root (join s t u a x) (f :: fs) rest) :
    f.sibling.addr ≠ some a := by
  have hcells := h.cells_join
  rw [frameCells] at hcells
  have hsplit : nodes.cells = {(a, link s t.addr u.addr (parentOf (f :: fs)) x)} +
      (f.sibling.cells (some f.addr) + (t.cells (some a) + u.cells (some a) +
        {(f.addr, link f.side (some a) f.sibling.addr (parentOf fs) f.data)} +
          frameCells (some f.addr) fs + rest)) := by
    rw [hcells]
    abel
  exact addr_ne_of_cells hsplit

/-- What the node at the place stores can be changed. -/
theorem modify_data (h : Placed nodes root (join s t u a x) fs rest) (f : α → α) :
    ∃ nodes', nodes.modify a (·.mapData f) = some nodes' ∧
      Placed nodes' root (join s t u a (f x)) fs rest := by
  obtain ⟨nodes', hmod, h'⟩ := Heap.modify_of_cells (·.mapData f) h.cells_join
  refine ⟨nodes', hmod, ?_, ?_⟩
  · rw [h', mapData_link, addr_join, PTree.cells_join]
    exact (add_assoc _ _ _).symm
  · rw [h.root_eq, addr_join, addr_join]

theorem height_le_brk (h : Placed nodes root t fs rest) :
    t.height + fs.length ≤ nodes.brk := by
  refine (length_le_height_plug t fs).trans ((height_le_size _).trans ?_)
  exact size_le_brk ((placed_plug.mp h).cells)

end Placed

end LibHL
