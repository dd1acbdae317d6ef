import LibHL.SkipList.Layers

/-!
# Searches and removals in sorted layers

However a skip list came to be, as long as its layers are linked, nested and in
ascending order, a search finds what is there, and a removal takes one item off
every layer and leaves the others as they are.  The comparator need not tell all
keys apart.
-/

namespace LibHL
namespace SkipList

variable {K V : Type} {c : Comparator K} {skl : SkipList K V} {L : ℕ → List Addr} {a : Addr}

/-- Layers that are linked and nested, each one in strictly ascending order. -/
structure SortedLayers (c : Comparator K) (skl : SkipList K V) (L : ℕ → List Addr) : Prop
    extends Layered skl L where
  sorted : ∀ i, i < skl.numLayers → (L i).Pairwise (KeyLt c.cmp skl.items)

/-! ## Searching -/

/-- The item that a search reaches compares equal to the key if any item does. -/
theorem SortedLayers.found_or_absent (h : SortedLayers c skl L) (key : K) :
    ∃ prevItem path, skiplistSearchInternal c.cmp skl key = some (prevItem, path) ∧
      ((∃ a item, itemWithKey c.cmp skl key prevItem = some (some (a, item)) ∧
          skl.items a = some item ∧ c.cmp item.key key = 0) ∨
        (itemWithKey c.cmp skl key prevItem = some none ∧
          ∀ a item, skl.items a = some item → c.cmp item.key key ≠ 0)) := by
  by_cases hpos : 0 < skl.numLayers
  · have hsorted := h.sorted 0 hpos
    obtain ⟨prevItem, path, hrun, hreached, -⟩ :=
      h.toLayered.skiplistSearchInternal_reaches hpos hsorted key
    exact ⟨prevItem, path, hrun, h.toLayered.itemWithKey_reached hpos hsorted hreached⟩
  · -- Without layers there are no items.
    refine ⟨none, fun _ => none, ?_, Or.inr ⟨rfl, ?_⟩⟩
    · rw [skiplistSearchInternal, Nat.eq_zero_of_not_pos hpos]
      rfl
    · intro a item hitem
      exact absurd (h.positive a item hitem) hpos

/-- In ascending order, two items that compare equal to a key are the same one. -/
theorem SortedLayers.eq_of_cmp (h : SortedLayers c skl L) {key : K} {b : Addr}
    {x y : SklItem K V} (ha : skl.items a = some x) (hb : skl.items b = some y)
    (hx : c.cmp x.key key = 0) (hy : c.cmp y.key key = 0) : a = b := by
  have hpos := h.positive a x ha
  have hle : ∀ u v : SklItem K V, c.cmp u.key key = 0 → c.cmp v.key key = 0 →
      ¬ c.cmp u.key v.key < 0 := by
    intro u v hu hv hlt
    have hkey : c.cmp key u.key ≤ 0 := (c.dual u.key key).mp (Int.le_of_eq hu.symm)
    have hvu : c.cmp v.key u.key ≤ 0 := c.trans _ _ _ (Int.le_of_eq hv) hkey
    exact absurd ((c.dual u.key v.key).mpr hvu) (Int.not_le.mpr hlt)
  by_contra hne
  have hordered : (L 0).Pairwise fun u v =>
      KeyLt c.cmp skl.items u v ∨ KeyLt c.cmp skl.items v u :=
    (h.sorted 0 hpos).imp Or.inl
  have : Std.Symm fun u v => KeyLt c.cmp skl.items u v ∨ KeyLt c.cmp skl.items v u :=
    ⟨fun _ _ => Or.symm⟩
  have hamem := (h.toLayered.mem_lowest hpos).mpr ⟨x, ha⟩
  have hbmem := (h.toLayered.mem_lowest hpos).mpr ⟨y, hb⟩
  rcases hordered.forall hamem hbmem hne with hlt | hlt
  · exact hle x y hx hy (hlt x y ha hb)
  · exact hle y x hy hx (hlt y x hb ha)

/-! ## Removing -/

theorem SortedLayers.removeItem (h : SortedLayers c skl L) {item : SklItem K V}
    (ha : skl.items a = some item) :
    ∃ skl', skiplistRemoveInternal skl a item = some skl' ∧
      SortedLayers c { skl' with count := skl'.count - 1 } (fun i => (L i).erase a) ∧
      skl'.items = skl.items.kill a ∧ skl'.count = skl.count ∧
      skl'.numLayers = skl.numLayers := by
  obtain ⟨skl', hrun, hlayered, hitems, hcount, hnum⟩ :=
    h.toLayered.skiplistRemoveInternal_spec ha
  refine ⟨skl', hrun, ⟨⟨hlayered.positive, hlayered.queues, hlayered.member,
    hlayered.lowest, hlayered.nested⟩, ?_⟩, hitems, hcount, hnum⟩
  intro i hi
  have hold : ∀ b z, skl'.items b = some z → skl.items b = some z := by
    intro b z hz
    rw [hitems, Heap.kill_apply] at hz
    by_cases hb : b = a
    · rw [if_pos hb] at hz
      cases hz
    · rwa [if_neg hb] at hz
  apply List.Pairwise.imp ?_ ((h.sorted i (hnum ▸ hi)).sublist List.erase_sublist)
  intro x y hxy u v hu hv
  exact hxy u v (hold x u hu) (hold y v hv)

/-- If an item has the key, a search returns its value, and a removal takes this item off
every layer and counts one item less.  Otherwise a search returns nothing and a removal
changes nothing. -/
theorem skiplist_search_and_remove (h : SortedLayers c skl L) (key : K) :
    (∀ a item, skl.items a = some item → c.cmp item.key key = 0 →
      skiplistSearch c.cmp skl key = some (some item.value) ∧
      ∃ skl', skiplistRemove c.cmp skl key = some (skl', 0, some item.value) ∧
        SortedLayers c skl' (fun i => (L i).erase a) ∧ skl'.items = skl.items.kill a ∧
        skl'.numLayers = skl.numLayers ∧ skl'.count = skl.count - 1) ∧
    ((∀ a item, skl.items a = some item → c.cmp item.key key ≠ 0) →
      skiplistSearch c.cmp skl key = some none ∧
      skiplistRemove c.cmp skl key = some (skl, -1, none)) := by
  obtain ⟨prevItem, path, hrun, hcases⟩ := h.found_or_absent key
  constructor
  · intro a item ha hkey
    rcases hcases with ⟨b, y, hfound, hb, hy⟩ | ⟨-, habsent⟩
    · obtain rfl := h.eq_of_cmp ha hb hkey hy
      rw [ha] at hb
      cases hb
      obtain ⟨skl', hremove, hsorted, hitems, hcount, hnum⟩ := h.removeItem ha
      refine ⟨by simp [skiplistSearch, hrun, hfound],
        { skl' with count := skl'.count - 1 }, ?_, hsorted, hitems, hnum, ?_⟩
      · simp [skiplistRemove, hrun, hfound, hremove]
      · rw [← hcount]
    · exact absurd hkey (habsent a item ha)
  · intro habsent
    rcases hcases with ⟨b, y, -, hb, hy⟩ | ⟨hnone, -⟩
    · exact absurd hy (habsent b y hb)
    · exact ⟨by simp [skiplistSearch, hrun, hnone], by simp [skiplistRemove, hrun, hnone]⟩

/-- The keys 1 and 4 on two layers; only 4 is on the upper one. -/
def twoLayers : SkipList ℕ ℕ where
  items := ((Heap.empty.alloc ⟨1, 10, fun i => i = 0⟩).1.alloc ⟨4, 40, fun _ => true⟩).1
  layers :=
    { first := fun i => if i = 0 then some (0, 0) else some (1, 1)
      last := fun i => some (.next (1, i))
      entry := fun w =>
        if w = (0, 0) then some ⟨some (1, 0), some (.first 0)⟩
        else if w = (1, 0) then some ⟨none, some (.next (0, 0))⟩
        else if w = (1, 1) then some ⟨none, some (.first 1)⟩
        else if w = (0, 1) then some ⟨none, none⟩
        else none }
  numLayers := 2
  probability := 50
  count := 2

theorem twoLayers_items {item : SklItem ℕ ℕ} :
    twoLayers.items a = some item ↔
      a = 0 ∧ item = ⟨1, 10, fun i => i = 0⟩ ∨ a = 1 ∧ item = ⟨4, 40, fun _ => true⟩ := by
  by_cases h₁ : a = 1
  · subst h₁
    simp [twoLayers, Heap.alloc_apply, Heap.empty, eq_comm]
  · by_cases h₀ : a = 0
    · subst h₀
      simp [twoLayers, Heap.alloc_apply, Heap.empty, eq_comm]
    · simp [twoLayers, Heap.alloc_apply, Heap.empty, h₀, h₁]

theorem sortedLayers_twoLayers :
    SortedLayers natComparator.toComparator twoLayers
      fun i => if i = 0 then [0, 1] else [1] where
  positive := fun _ _ _ => Nat.two_pos
  queues := by
    intro i hi
    obtain rfl | rfl : i = 0 ∨ i = 1 := by
      have : i < 2 := hi
      omega
    · exact ⟨by decide, rfl, rfl, rfl, rfl, trivial⟩
    · exact ⟨by decide, rfl, rfl, rfl, trivial⟩
  member := by
    intro i _ a
    by_cases hi : i = 0
    · simp [twoLayers_items, hi, or_and_right, exists_or]
    · simp [twoLayers_items, hi, or_and_right, exists_or]
  lowest := by
    intro a item hitem
    rcases twoLayers_items.mp hitem with ⟨-, rfl⟩ | ⟨-, rfl⟩
    · rfl
    · rfl
  nested := by
    intro a item i hitem _ hcheck
    rcases twoLayers_items.mp hitem with ⟨-, rfl⟩ | ⟨-, rfl⟩
    · simp at hcheck
    · rfl
  sorted := by
    intro i _
    by_cases hi : i = 0
    · simp [hi, KeyLt, twoLayers_items, natComparator]
    · simp [hi]

theorem skiplist_search_and_remove_twoLayers :
    skiplistSearch natComparator.cmp twoLayers 4 = some (some 40) ∧
      ∃ skl', skiplistRemove natComparator.cmp twoLayers 4 = some (skl', 0, some 40) ∧
        skl'.count = 1 := by
  obtain ⟨hsearch, skl', hremove, -, -, -, hcount⟩ :=
    (skiplist_search_and_remove sortedLayers_twoLayers 4).1 1 ⟨4, 40, fun _ => true⟩
      (twoLayers_items.mpr (Or.inr ⟨rfl, rfl⟩)) rfl
  exact ⟨hsearch, skl', hremove, hcount⟩

end SkipList
end LibHL
