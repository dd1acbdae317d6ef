import LibHL.RbTree.Invariant
import LibHL.Support.TreeSearch

/-!
# Finding a key, and the place for a new one

Both searches of the source follow the comparison down from a node, and end where the
search of the addressed tree does.  A new node becomes a leaf there, or takes the place of
a node with an equal key.
-/

namespace LibHL
namespace RbTree

open LinkedNode PTree RbtData

variable {V : Type} {tree : Rbt V} {nodes : Heap (RbtNode V)} {root : Option Addr}
  {t T : PTree (RbtData V)} {fs : List (Frame (RbtData V))}
  {rest : Multiset (Addr × RbtNode V)} {x new : Addr} {d dn : RbtData V}

/-- Every key is as long as its node says. -/
def Whole (t : PTree (RbtData V)) : Prop := ∀ d ∈ t.values, d.key.length = d.klen

theorem bytes_of_length (h : d.key.length = d.klen) : d.bytes = some d.key := by
  rw [bytes, ← h, if_pos (le_refl _), List.take_length]

theorem whole_join {s : Side} {t u : PTree (RbtData V)} :
    Whole (join s t u x d) ↔ Whole t ∧ d.key.length = d.klen ∧ Whole u := by
  constructor
  · intro h
    refine ⟨fun e he => h e ?_, h d ?_, fun e he => h e ?_⟩
    · exact mem_values_join.mpr (Or.inl he)
    · exact mem_values_join.mpr (Or.inr (Or.inl rfl))
    · exact mem_values_join.mpr (Or.inr (Or.inr he))
  · rintro ⟨ht, hd, hu⟩ e he
    rcases mem_values_join.mp he with he | rfl | he
    · exact ht e he
    · exact hd
    · exact hu e he

theorem whole_plug {t : PTree (RbtData V)} (h : Whole (plug t fs)) : Whole t := by
  obtain ⟨A, B, hAB⟩ := exists_values_plug fs
  intro d hd
  refine h d ?_
  rw [hAB]
  exact List.mem_append_right _ (List.mem_append_left _ hd)

theorem whole_of_entries {t u : PTree (RbtData V)}
    (h : u.values.map entry = t.values.map entry) (ht : Whole t) : Whole u := by
  intro e he
  have hmem : e.entry ∈ t.values.map entry := h ▸ List.mem_map_of_mem he
  obtain ⟨e', he', heq⟩ := List.mem_map.mp hmem
  have hlen := ht e' he'
  cases e'
  cases e
  cases heq
  exact hlen

/-! ## Finding -/

theorem rbtFindInternal_spec (cmp : List UInt8 → List UInt8 → ℤ) (key : List UInt8) :
    ∀ (fuel : ℕ) (t : PTree (RbtData V)) (fs : List (Frame (RbtData V))),
      t.height ≤ fuel → Placed nodes root t fs rest → Whole t →
      rbtFindInternal cmp key fuel nodes t.addr =
        some (seek (fun d => cmp d.key key) t fs).1.addr := by
  intro fuel
  induction fuel with
  | zero =>
      intro t fs hle _ _
      cases t with
      | leaf => rfl
      | node l x d r => exact absurd hle (Nat.not_succ_le_zero _)
  | succ fuel ih =>
      intro t fs hle h hwhole
      cases t with
      | leaf => rfl
      | node l x d r =>
          by_cases hzero : cmp d.key key = 0
          · have hx := h.node_eq (s := .left)
            have hbytes := bytes_of_length ((whole_join (s := .left)).mp hwhole).2.1
            rw [seek, if_pos hzero]
            simp [PTree.addr, rbtFindInternal, hx, hbytes, hzero]
          · have htoward := toward_branch hzero
            obtain ⟨s, hs⟩ : ∃ s, (if 0 < cmp d.key key then Side.left else .right) = s :=
              ⟨_, rfl⟩
            obtain ⟨t, u, heq⟩ := node_eq_join l x d r s
            rw [hs] at htoward
            rw [heq] at h hle hwhole ⊢
            obtain ⟨ht, hd, -⟩ := whole_join.mp hwhole
            have hx := h.node_eq
            have hbytes := bytes_of_length hd
            rw [height_join] at hle
            have hrec := ih t _ (by omega) (placed_cons (f := ⟨s, x, d, u⟩).mpr h) ht
            rw [seek_join (c := fun d : RbtData V => cmp d.key key) htoward, ← hrec]
            simp [rbtFindInternal, hx, hbytes, hzero, hs]

/-- The search of a call for a key. -/
theorem rbtFindInternal_root (cmp : List UInt8 → List UInt8 → ℤ) (key : List UInt8)
    (h : Represents tree T) (hwhole : Whole T) :
    rbtFindInternal cmp key (tree.nodes.brk + 1) tree.nodes tree.root =
      some (seek (fun d => cmp d.key key) T []).1.addr := by
  have hfuel : T.height ≤ tree.nodes.brk + 1 :=
    (Nat.le_add_right _ _).trans (h.placed.height_le_brk.trans (Nat.le_succ _))
  rw [h.root_eq]
  exact rbtFindInternal_spec cmp key _ T [] hfuel h.placed hwhole

/-- What a search for a node answers. -/
def foundAnswer : Option (RbtData V) → RbtAnswer V
  | none => ⟨-1, none⟩
  | some d => ⟨0, some d.value⟩

/-- A key is found exactly if it is in the tree. -/
theorem rbtFind_spec (c : Comparator (List UInt8)) (h : Represents tree T) (hwhole : Whole T)
    (hord : Ordered c RbtData.key T) (key : List UInt8) :
    rbtFind c.cmp tree key = some (foundAnswer (lookup c RbtData.key T.values key)) := by
  rw [← rootData_seek hord, rbtFind, rbtFindInternal_root c.cmp key h hwhole]
  have hplug := plug_seek (c := fun d : RbtData V => c.cmp d.key key) T []
  rcases seek_cases (c := fun d : RbtData V => c.cmp d.key key) T [] with
    hleaf | ⟨l, x, d, r, hnode, -⟩
  · rw [hleaf]
    rfl
  · rw [hnode, plug] at hplug
    rw [← hplug, represents_plug] at h
    have hx := h.node_eq (s := .left)
    simp [hnode, PTree.addr, hx, rootData, foundAnswer]

/-! ## The place of a new node -/

/-- The new node as a leaf, or with the links and the colour of the node that it
replaces. -/
def withNew (new : Addr) (dn : RbtData V) : PTree (RbtData V) → PTree (RbtData V)
  | .leaf => .node .leaf new dn .leaf
  | .node l _ d r => .node l new (dn.paint d.color) r

/-- What `rbt_add_internal` returns. -/
def addedRc : PTree (RbtData V) → ℤ
  | .leaf => 0
  | .node _ _ _ _ => 1

/-- What has been passed to the callback after a new node with `dn` has gone to a place: the
value that it replaces is released, unless it is the new one. -/
def freedBy [DecidableEq V] (tree : Rbt V) (dn : RbtData V) :
    PTree (RbtData V) → List (Option V)
  | .leaf => tree.freed
  | .node _ _ d _ =>
      if dn.value ≠ d.value ∧ tree.freeValueCb = true then tree.freed ++ [d.value]
      else tree.freed

theorem replaceNode_spec [DecidableEq V] {l r : PTree (RbtData V)}
    (h : Placed tree.nodes tree.root (.node l x d r) fs {(new, ⟨none, none, none, dn⟩)}) :
    ∃ nodes', replaceNode tree x new =
        some { tree with nodes := nodes', freed := freedBy tree dn (.node l x d r) } ∧
      nodes'.cells = (withNew new dn (.node l x d r)).cells (parentOf fs) +
        frameCells (some new) fs := by
  have hx := h.node_eq (s := .left)
  have hs := h.cells_join (s := .left)
  have h₀ : tree.nodes.cells = {(new, link .left none none none dn)} +
      ({(x, link .left l.addr r.addr (parentOf fs) d)} +
        (l.cells (some x) + r.cells (some x) + frameCells (some x) fs)) := by
    rw [hs, link]
    abel
  have hnew := Heap.eq_some_of_cells h₀
  obtain ⟨nodes₁, hmod₁, h₁⟩ := Heap.modify_of_cells
    (fun m => (m.setParent (parentOf fs)).mapData (·.paint d.color)) h₀
  rw [setParent_link, mapData_link] at h₁
  have h₁' : nodes₁.cells = {(x, link .left l.addr r.addr (parentOf fs) d)} +
      ({(new, link .left none none (parentOf fs) (dn.paint d.color))} +
        (l.cells (some x) + r.cells (some x)) + frameCells (some x) fs) := by
    rw [h₁]
    abel
  obtain ⟨nodes₂, hlink, h₂⟩ := relink_of_cells h₁' (some new)
  have h₂' : nodes₂.cells = {(new, link .left none none (parentOf fs) (dn.paint d.color))} +
      ({(x, link .left l.addr r.addr (parentOf fs) d)} +
        (l.cells (some x) + r.cells (some x) + frameCells (some new) fs)) := by
    rw [h₂]
    abel
  obtain ⟨nodes₃, hmod₃, h₃⟩ := Heap.modify_of_cells
    (fun m => (m.setChild .left l.addr).setChild .right r.addr) h₂'
  have h₃' : nodes₃.cells = l.cells (some x) +
      ({(new, link .left l.addr r.addr (parentOf fs) (dn.paint d.color))} +
        ({(x, link .left l.addr r.addr (parentOf fs) d)} +
          (r.cells (some x) + frameCells (some new) fs))) := by
    rw [h₃]
    simp only [link, setChild]
    abel
  obtain ⟨nodes₄, hmod₄, h₄⟩ := setParentOf_of_cells h₃' (some new)
  have h₄' : nodes₄.cells = r.cells (some x) + (l.cells (some new) +
      ({(new, link .left l.addr r.addr (parentOf fs) (dn.paint d.color))} +
        ({(x, link .left l.addr r.addr (parentOf fs) d)} + frameCells (some new) fs))) := by
    rw [h₄]
    abel
  obtain ⟨nodes₅, hmod₅, h₅⟩ := setParentOf_of_cells h₄' (some new)
  have h₅' : nodes₅.cells = {(x, link .left l.addr r.addr (parentOf fs) d)} +
      ({(new, link .left l.addr r.addr (parentOf fs) (dn.paint d.color))} +
        (l.cells (some new) + r.cells (some new)) + frameCells (some new) fs) := by
    rw [h₅]
    abel
  obtain ⟨nodes₆, hfree, h₆⟩ := Heap.free_of_cells h₅'
  refine ⟨nodes₆, ?_, h₆⟩
  simp only [freedBy, replaceNode, hx, hnew, Option.bind_eq_bind, Option.bind_some, parent_link, data_link,
    hmod₁, hlink]
  simp only [link, hmod₃, Option.bind_some, hmod₄, hmod₅, hfree]

/-- A new leaf. -/
theorem attach_spec {s : Side} {u : PTree (RbtData V)}
    (h : Placed tree.nodes tree.root (join s .leaf u x d) fs {(new, ⟨none, none, none, dn⟩)}) :
    ∃ nodes', (do
        let nodes ← tree.nodes.modify x (·.setChild s (some new))
        nodes.modify new (·.setParent (some x))) = some nodes' ∧
      nodes'.cells = (withNew new dn .leaf).cells (some x) +
        frameCells (some new) (⟨s, x, d, u⟩ :: fs) := by
  have h₀ := h.cells_join
  obtain ⟨nodes₁, hmod₁, h₁⟩ := Heap.modify_of_cells (·.setChild s (some new)) h₀
  have h₁' : nodes₁.cells = {(new, link .left none none none dn)} +
      ({(x, link s (some new) u.addr (parentOf fs) d)} +
        (u.cells (some x) + frameCells (some x) fs)) := by
    rw [h₁, setChild_link, cells_leaf, zero_add, link]
    abel
  obtain ⟨nodes₂, hmod₂, h₂⟩ := Heap.modify_of_cells (·.setParent (some x)) h₁'
  refine ⟨nodes₂, ?_, ?_⟩
  · simp [hmod₁, hmod₂]
  · rw [h₂, setParent_link, link, withNew, PTree.cells, frameCells, cells_leaf, add_zero,
      add_zero, addr_leaf]

/-- A new node goes where the search for its key ends. -/
theorem rbtAddInternal_spec [DecidableEq V] (cmp : List UInt8 → List UInt8 → ℤ)
    (hdn : dn.key.length = dn.klen) :
    ∀ (fuel : ℕ) (t : PTree (RbtData V)) (fs : List (Frame (RbtData V))) (cur : Addr),
      t.height ≤ fuel → t.addr = some cur →
      Placed tree.nodes tree.root t fs {(new, ⟨none, none, none, dn⟩)} → Whole t →
      ∃ nodes', rbtAddInternal cmp fuel tree cur new =
          some ({ tree with
            nodes := nodes'
            freed := freedBy tree dn (seek (fun d => cmp d.key dn.key) t fs).1 },
            addedRc (seek (fun d => cmp d.key dn.key) t fs).1) ∧
        nodes'.cells = (withNew new dn (seek (fun d => cmp d.key dn.key) t fs).1).cells
            (parentOf (seek (fun d => cmp d.key dn.key) t fs).2) +
          frameCells (some new) (seek (fun d => cmp d.key dn.key) t fs).2 := by
  intro fuel
  induction fuel with
  | zero =>
      intro t fs cur hle haddr _ _
      cases t with
      | leaf => cases haddr
      | node l x d r => exact absurd hle (Nat.not_succ_le_zero _)
  | succ fuel ih =>
      intro t fs cur hle haddr h hwhole
      cases t with
      | leaf => cases haddr
      | node l x d r =>
          obtain rfl : x = cur := Option.some.inj haddr
          have hnew : tree.nodes new = some ⟨none, none, none, dn⟩ := by
            have hs := h.cells
            rw [← add_assoc, add_comm] at hs
            exact Heap.eq_some_of_cells hs
          by_cases hzero : cmp d.key dn.key = 0
          · obtain ⟨nodes', hrep, hcells⟩ := replaceNode_spec h
            have hx := h.node_eq (s := .left)
            have hbytes := bytes_of_length ((whole_join (s := .left)).mp hwhole).2.1
            rw [seek, if_pos hzero]
            refine ⟨nodes', ?_, hcells⟩
            simp [rbtAddInternal, hx, hnew, hbytes, bytes_of_length hdn, hzero, hrep, addedRc]
          · have htoward := toward_branch hzero
            obtain ⟨s, hs⟩ : ∃ s, (if 0 < cmp d.key dn.key then Side.left else .right) = s :=
              ⟨_, rfl⟩
            obtain ⟨t, u, heq⟩ := node_eq_join l x d r s
            rw [hs] at htoward
            rw [heq] at h hle hwhole ⊢
            obtain ⟨ht, hd, -⟩ := whole_join.mp hwhole
            have hx := h.node_eq
            have hbytes := bytes_of_length hd
            rw [height_join] at hle
            rw [seek_join (c := fun d : RbtData V => cmp d.key dn.key) htoward]
            cases haddr : t.addr with
            | some child =>
                obtain ⟨nodes', hrec, hcells⟩ := ih t _ child (by omega) haddr
                  (placed_cons (f := ⟨s, x, d, u⟩).mpr h) ht
                refine ⟨nodes', ?_, hcells⟩
                simp [rbtAddInternal, hx, hnew, hbytes, bytes_of_length hdn, hzero, hs, haddr,
                  hrec]
            | none =>
                obtain rfl := addr_eq_none haddr
                obtain ⟨nodes', hattach, hcells⟩ := attach_spec h
                refine ⟨nodes', ?_, hcells⟩
                obtain ⟨nodes₁, hmod₁, hmod₂⟩ := Option.bind_eq_some_iff.mp hattach
                simp [rbtAddInternal, hx, hnew, hbytes, bytes_of_length hdn, hzero, hs, hmod₁,
                  hmod₂, seek, addedRc, freedBy]

end RbTree
end LibHL
