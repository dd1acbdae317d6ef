import LibHL.Support.HeapCells

/-!
# The cells of a doubly linked chain

A chain is described by the list of its addresses and contents.  Given what is before and
behind it, the list determines the cells of the chain, so that a heap can be split into
chains, parts of chains and single cells.  A relinking replaces one part.
-/

namespace LibHL

variable {α β : Type*}

/-! ## The two ends -/

/-- The address of the first element, or the given one if there is none. -/
def firstAddr : List (Addr × β) → Option Addr → Option Addr
  | [], next => next
  | c :: _, _ => some c.1

/-- The address of the last element, or the given one if there is none. -/
def lastAddr : Option Addr → List (Addr × β) → Option Addr
  | prev, [] => prev
  | _, c :: cs => lastAddr (some c.1) cs

@[simp] theorem firstAddr_nil (next : Option Addr) :
    firstAddr ([] : List (Addr × β)) next = next := rfl

@[simp] theorem firstAddr_cons (c : Addr × β) (cs : List (Addr × β)) (next : Option Addr) :
    firstAddr (c :: cs) next = some c.1 := rfl

@[simp] theorem lastAddr_nil (prev : Option Addr) :
    lastAddr prev ([] : List (Addr × β)) = prev := rfl

@[simp] theorem lastAddr_cons (prev : Option Addr) (c : Addr × β) (cs : List (Addr × β)) :
    lastAddr prev (c :: cs) = lastAddr (some c.1) cs := rfl

@[simp] theorem firstAddr_append (cs ds : List (Addr × β)) (next : Option Addr) :
    firstAddr (cs ++ ds) next = firstAddr cs (firstAddr ds next) := by
  cases cs with
  | nil => rfl
  | cons c cs => rfl

@[simp] theorem lastAddr_append (prev : Option Addr) (cs ds : List (Addr × β)) :
    lastAddr prev (cs ++ ds) = lastAddr (lastAddr prev cs) ds := by
  induction cs generalizing prev with
  | nil => rfl
  | cons c cs ih => exact ih (some c.1)

theorem firstAddr_reverse (cs : List (Addr × β)) (next : Option Addr) :
    firstAddr cs.reverse next = lastAddr next cs := by
  induction cs generalizing next with
  | nil => rfl
  | cons c cs ih =>
      rw [List.reverse_cons, firstAddr_append, lastAddr_cons, ← ih]
      rfl

/-! ## Cells -/

variable {cell : Option Addr → Option Addr → β → α} {prev next : Option Addr}
  {cs ds : List (Addr × β)} {h : Heap α} {a : Addr} {v : β} {rest : Multiset (Addr × α)}

/-- The cells of a chain; `cell` makes a cell from its two links and its contents. -/
def chainCells (cell : Option Addr → Option Addr → β → α) :
    Option Addr → List (Addr × β) → Option Addr → Multiset (Addr × α)
  | _, [], _ => 0
  | prev, c :: cs, next =>
      {(c.1, cell prev (firstAddr cs next) c.2)} + chainCells cell (some c.1) cs next

@[simp] theorem chainCells_nil (prev next : Option Addr) :
    chainCells cell prev [] next = 0 := rfl

theorem chainCells_cons (prev next : Option Addr) (c : Addr × β) (cs : List (Addr × β)) :
    chainCells cell prev (c :: cs) next =
      {(c.1, cell prev (firstAddr cs next) c.2)} + chainCells cell (some c.1) cs next := rfl

/-- The two parts of a chain are linked to each other. -/
theorem chainCells_append (prev next : Option Addr) (cs ds : List (Addr × β)) :
    chainCells cell prev (cs ++ ds) next =
      chainCells cell prev cs (firstAddr ds next) +
        chainCells cell (lastAddr prev cs) ds next := by
  induction cs generalizing prev with
  | nil => exact (zero_add _).symm
  | cons c cs ih =>
      rw [List.cons_append, chainCells_cons, chainCells_cons, firstAddr_append, ih, add_assoc]
      rfl

theorem map_fst_chainCells (prev next : Option Addr) (cs : List (Addr × β)) :
    (chainCells cell prev cs next).map Prod.fst = ↑(cs.map Prod.fst) := by
  induction cs generalizing prev with
  | nil => rfl
  | cons c cs ih =>
      rw [chainCells_cons, Multiset.map_add, Multiset.map_singleton, ih,
        Multiset.singleton_add, List.map_cons, Multiset.cons_coe]

theorem nodup_of_chainCells (hs : h.cells = chainCells cell prev cs next + rest) :
    (cs.map Prod.fst).Nodup := by
  have hnodup := h.nodup_cells
  rw [hs, Multiset.map_add, map_fst_chainCells] at hnodup
  exact Multiset.coe_nodup.mp (Multiset.nodup_of_le (Multiset.le_add_right _ _) hnodup)

theorem length_le_brk_of_chainCells (hs : h.cells = chainCells cell prev cs next + rest) :
    cs.length ≤ h.brk := by
  have hcard := h.card_cells_le_brk
  rw [hs, Multiset.card_add, ← Multiset.card_map Prod.fst (chainCells _ _ _ _),
    map_fst_chainCells, Multiset.coe_card, List.length_map] at hcard
  exact (Nat.le_add_right _ _).trans hcard

/-- Each element of a chain splits its cells. -/
theorem chainCells_middle (prev next : Option Addr) (cs ds : List (Addr × β)) (a : Addr)
    (v : β) :
    chainCells cell prev (cs ++ (a, v) :: ds) next =
      {(a, cell (lastAddr prev cs) (firstAddr ds next) v)} +
        (chainCells cell prev cs (some a) + chainCells cell (some a) ds next) := by
  rw [chainCells_append, chainCells_cons, firstAddr_cons, add_left_comm]

theorem read_of_chainCells
    (hs : h.cells = chainCells cell prev (cs ++ (a, v) :: ds) next + rest) :
    h a = some (cell (lastAddr prev cs) (firstAddr ds next) v) := by
  rw [chainCells_middle, add_assoc] at hs
  exact Heap.eq_some_of_cells hs

/-! ## Relinking -/

/-- Writing the link behind the last element. -/
theorem relink_last {f : α → α} {new : Option Addr}
    (hf : ∀ p n v, f (cell p n v) = cell p new v) (hne : cs ≠ [])
    (hs : h.cells = chainCells cell prev cs next + rest) :
    ∃ a h', lastAddr prev cs = some a ∧ h.modify a f = some h' ∧
      h'.cells = chainCells cell prev cs new + rest := by
  obtain ⟨ds, ⟨a, v⟩, rfl⟩ := (List.eq_nil_or_concat' cs).resolve_left hne
  rw [chainCells_middle, chainCells_nil, add_assoc] at hs
  obtain ⟨h', hrun, hs'⟩ := Heap.modify_of_cells f hs
  refine ⟨a, h', ?_, hrun, ?_⟩
  · rw [lastAddr_append, lastAddr_cons, lastAddr_nil]
  · rw [hs', hf, chainCells_middle, chainCells_nil, firstAddr_nil]
    exact (add_assoc _ _ _).symm

/-- Writing the link before the first element. -/
theorem relink_first {f : α → α} {new : Option Addr}
    (hf : ∀ p n v, f (cell p n v) = cell new n v) (hne : cs ≠ [])
    (hs : h.cells = chainCells cell prev cs next + rest) :
    ∃ a h', firstAddr cs next = some a ∧ h.modify a f = some h' ∧
      h'.cells = chainCells cell new cs next + rest := by
  obtain ⟨⟨a, v⟩, ds, rfl⟩ := List.exists_cons_of_ne_nil hne
  rw [chainCells_cons, add_assoc] at hs
  obtain ⟨h', hrun, hs'⟩ := Heap.modify_of_cells f hs
  refine ⟨a, h', rfl, hrun, ?_⟩
  rw [hs', hf, chainCells_cons, add_assoc]

/-- Writing the contents of an element. -/
theorem write_content {f : α → α} {w : β} (hf : ∀ p n, f (cell p n v) = cell p n w)
    (hs : h.cells = chainCells cell prev (cs ++ (a, v) :: ds) next + rest) :
    ∃ h', h.modify a f = some h' ∧
      h'.cells = chainCells cell prev (cs ++ (a, w) :: ds) next + rest := by
  rw [chainCells_middle, add_assoc] at hs
  obtain ⟨h', hrun, hs'⟩ := Heap.modify_of_cells f hs
  refine ⟨h', hrun, ?_⟩
  rw [hs', hf, chainCells_middle]
  exact (add_assoc _ _ _).symm

/-! ## Walking along a chain -/

/-- Following the links leads through the elements of the list and then to `stop`. -/
def Follows (h : Heap α) (follow : α → Option Addr) (content : α → β) :
    List (Addr × β) → Option Addr → Prop
  | [], _ => True
  | c :: cs, stop => (∃ x, h c.1 = some x ∧ content x = c.2 ∧ follow x = firstAddr cs stop) ∧
      Follows h follow content cs stop

/-- Forward through a part of a chain. -/
theorem follows_next (follow : α → Option Addr) (content : α → β) {before : List (Addr × β)}
    (hfollow : ∀ p n v, follow (cell p n v) = n) (hcontent : ∀ p n v, content (cell p n v) = v)
    (hs : h.cells = chainCells cell prev (before ++ (cs ++ ds)) next + rest) :
    Follows h follow content cs (firstAddr ds next) := by
  induction cs generalizing before with
  | nil => trivial
  | cons c cs ih =>
      have hread := read_of_chainCells hs
      refine ⟨⟨_, hread, hcontent _ _ _, ?_⟩, ?_⟩
      · exact (hfollow _ _ _).trans (firstAddr_append cs ds next)
      · have hmoved : before ++ (c :: cs ++ ds) = (before ++ [c]) ++ (cs ++ ds) := by
          rw [List.append_assoc]
          rfl
        rw [hmoved] at hs
        exact ih hs

/-- Backward through a part of a chain. -/
theorem follows_prev (follow : α → Option Addr) (content : α → β) {before : List (Addr × β)}
    (hfollow : ∀ p n v, follow (cell p n v) = p) (hcontent : ∀ p n v, content (cell p n v) = v)
    (hs : h.cells = chainCells cell prev (before ++ (cs ++ ds)) next + rest) :
    Follows h follow content cs.reverse (lastAddr prev before) := by
  induction cs using List.reverseRecOn generalizing ds with
  | nil => trivial
  | append_singleton cs c ih =>
      have hmoved : before ++ (cs ++ [c] ++ ds) = before ++ cs ++ c :: ds := by
        simp only [List.append_assoc, List.singleton_append]
      rw [hmoved] at hs
      have hread := read_of_chainCells hs
      rw [List.reverse_append, List.reverse_singleton, List.singleton_append]
      refine ⟨⟨_, hread, hcontent _ _ _, ?_⟩, ?_⟩
      · rw [hfollow, lastAddr_append, firstAddr_reverse]
      · rw [List.append_assoc] at hs
        exact ih hs

theorem mem_chainCells {x : α} : (a, x) ∈ chainCells cell prev cs next ↔
    ∃ before v behind, cs = before ++ (a, v) :: behind ∧
      x = cell (lastAddr prev before) (firstAddr behind next) v := by
  constructor
  · intro hmem
    induction cs generalizing prev with
    | nil => exact absurd hmem (Multiset.notMem_zero _)
    | cons c cs ih =>
        rw [chainCells_cons, Multiset.mem_add, Multiset.mem_singleton, Prod.mk.injEq] at hmem
        rcases hmem with ⟨rfl, rfl⟩ | hmem
        · exact ⟨[], c.2, cs, rfl, rfl⟩
        · obtain ⟨before, v, behind, rfl, rfl⟩ := ih hmem
          exact ⟨c :: before, v, behind, rfl, rfl⟩
  · rintro ⟨before, v, behind, rfl, rfl⟩
    rw [chainCells_middle]
    exact Multiset.mem_add.mpr (Or.inl (Multiset.mem_singleton_self _))

/-- Live cells that are linked as a chain are a part of the heap. -/
theorem exists_rest_of_reads (cell : Option Addr → Option Addr → β → α)
    (prev next : Option Addr) (hnodup : (cs.map Prod.fst).Nodup)
    (hreads : ∀ before a v behind, cs = before ++ (a, v) :: behind →
      h a = some (cell (lastAddr prev before) (firstAddr behind next) v)) :
    ∃ rest, h.cells = chainCells cell prev cs next + rest := by
  have hcells : (chainCells cell prev cs next).Nodup := by
    apply Multiset.Nodup.of_map Prod.fst
    rw [map_fst_chainCells]
    exact Multiset.coe_nodup.mpr hnodup
  have hsub : chainCells cell prev cs next ≤ h.cells := by
    rw [Multiset.le_iff_subset hcells]
    rintro ⟨a, x⟩ hmem
    obtain ⟨before, v, behind, hcs, rfl⟩ := mem_chainCells.mp hmem
    exact Heap.mem_cells.mpr (hreads before a v behind hcs)
  obtain ⟨rest, hrest⟩ := Multiset.le_iff_exists_add.mp hsub
  exact ⟨rest, hrest⟩

end LibHL
