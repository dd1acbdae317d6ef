import LibHL.SkipList.Refinement

/-!
# The layers of the skip list

Whatever the comparator says, the layers stay linked as they should as long as no
insertion links a wrapper after one of another layer.  Removals never disturb
them.
-/

namespace LibHL
namespace SkipList

variable {K V : Type} {cmp : K → K → ℤ} {skl : SkipList K V} {L : ℕ → List Addr} {key : K}

/-- Each layer is a queue of its own wrappers of exactly the items that are flagged
for it, with the last pointer of the queue at its end, and the layers are nested. -/
def LayerStructure (skl : SkipList K V) : Prop :=
  ∃ L : ℕ → List Addr, ∀ i, i < skl.numLayers →
    skl.layers.Holds i (wrappersOf i (L i)) ∧
    (∀ a, a ∈ L i ↔ ∃ item, skl.items a = some item ∧ item.layerCheck i = true) ∧
    (i + 1 < skl.numLayers → ∀ a ∈ L (i + 1), a ∈ L i)

/-- The insertions that update an item, or that link each wrapper of a new item into
its own layer. -/
def InsertsOnLayers (cmp : K → K → ℤ) (skl : SkipList K V) : SkipListOp K V → Prop
  | .insert key _ random =>
      match skiplistSearchInternal cmp skl key with
      | none => True
      | some r => (itemWithKey cmp skl key r.1).any Option.isSome = true ∨
          0 < skl.numLayers ∧ MovesOnLayers skl random r.2
  | .remove _ => True
  | .search _ => True

instance decidableInsertsOnLayers (cmp : K → K → ℤ) (skl : SkipList K V)
    (op : SkipListOp K V) : Decidable (InsertsOnLayers cmp skl op) :=
  match op with
  | .insert key value random =>
      match h : skiplistSearchInternal cmp skl key with
      | none => isTrue (by simp [InsertsOnLayers, h])
      | some r =>
          decidable_of_iff ((itemWithKey cmp skl key r.1).any Option.isSome = true ∨
            0 < skl.numLayers ∧ MovesOnLayers skl random r.2)
            (by simp [InsertsOnLayers, h])
  | .remove _ => isTrue trivial
  | .search _ => isTrue trivial

theorem Layered.layerStructure (h : Layered skl L) : LayerStructure skl := by
  refine ⟨L, ?_⟩
  intro i hi
  exact ⟨h.queues i hi, h.member i hi, fun hi' a ha => h.mem_below hi' ha i (Nat.le_succ i)⟩

theorem layered_create (numLayers : ℕ) (probability : ℤ) :
    Layered (skiplistCreate numLayers probability : SkipList K V) fun _ => [] := by
  refine ⟨?_, ?_, ?_, ?_, ?_⟩
  · intro a item hitem
    cases hitem
  · intro i hi
    exact ⟨List.nodup_nil, rfl, if_pos hi, trivial⟩
  · intro i _ a
    constructor
    · intro ha
      cases ha
    · rintro ⟨item, hitem, -⟩
      cases hitem
  · intro a item hitem
    cases hitem
  · intro a item i hitem
    cases hitem

/-! ## One operation -/

/-- The item that was passed last is live, so it can be compared. -/
theorem Layered.itemWithKey_spec (h : Layered skl L) {prevItem : Option SklItemWrapper}
    (hprev : Passed cmp skl L key 0 prevItem) :
    itemWithKey cmp skl key prevItem = some none ∨
      ∃ a item, itemWithKey cmp skl key prevItem = some (some (a, item)) ∧
        skl.items a = some item := by
  cases prevItem with
  | none => exact Or.inl rfl
  | some w =>
      obtain ⟨-, hwN, hmem, -⟩ := hprev w rfl
      obtain ⟨item, hitem⟩ := h.live_of_mem hwN hmem
      by_cases heq : cmp item.key key = 0
      · exact Or.inr ⟨w.1, item, by simp [itemWithKey, hitem, heq], hitem⟩
      · exact Or.inl (by simp [itemWithKey, hitem, heq])

/-- A new item goes to the lowest layer after the item that was passed last, on
whatever layer that was. -/
theorem Layered.linkLowest (h : Layered skl L) (hpos : 0 < skl.numLayers)
    {prevItem : Option SklItemWrapper} (hprev : Passed cmp skl L key 0 prevItem) :
    ∃ layers₁ l, linkWrapper (allocWrappers skl.layers skl.items.brk skl.numLayers) 0
        (prevItem.map fun w => (w.1, 0)) (skl.items.brk, 0) = some layers₁ ∧
      Queues layers₁ skl.numLayers (Function.update L 0 l) ∧
      (∀ b, b ∈ l ↔ b ∈ L 0 ∨ b = skl.items.brk) ∧
      ∀ i, i < skl.numLayers → (layers₁.entry (skl.items.brk, i)).isSome := by
  obtain ⟨hq₀, hlive₀⟩ := allocWrappers_queues h.queues fun i hi => h.brk_notMem hi
  have hon : OnLayer L 0 (prevItem.map fun w => (w.1, 0)) := by
    intro w hw
    obtain ⟨w', hw', rfl⟩ := Option.map_eq_some_iff.mp hw
    obtain ⟨-, hwN, hmem, -⟩ := hprev w' hw'
    exact ⟨rfl, h.mem_below hwN hmem 0 (Nat.zero_le _)⟩
  obtain ⟨layers₁, l, hlink, hq₁, hl, hsome⟩ :=
    linkWrapper_spec hq₀ hpos (h.brk_notMem hpos) (hlive₀ 0 hpos) hon
  exact ⟨layers₁, l, hlink, hq₁, hl, fun i hi => (hsome _).mpr (hlive₀ i hi)⟩

/-- An insertion updates the item that was passed last, or makes a new one. -/
theorem Layered.skiplistInsert_cases (h : Layered skl L) (key : K) (value : V)
    (random : ℕ → ℕ) (hok : InsertsOnLayers cmp skl (.insert key value random)) :
    ∃ r skl' L', skiplistSearchInternal cmp skl key = some r ∧ Layered skl' L' ∧
      skl'.numLayers = skl.numLayers ∧
      ((∃ a item, itemWithKey cmp skl key r.1 = some (some (a, item)) ∧
          skl.items a = some item ∧
          skl'.items = skl.items.put a { item with value := value } ∧
          skiplistInsert cmp skl key value random = some (skl', 1)) ∨
        itemWithKey cmp skl key r.1 = some none ∧
          (∃ check, skl'.items = (skl.items.alloc ⟨key, value, fun _ => false⟩).1.put
            skl.items.brk ⟨key, value, check⟩) ∧
          skiplistInsert cmp skl key value random = some (skl', 0)) := by
  obtain ⟨prevItem, path, hrun, hprev, hpath⟩ := h.skiplistSearchInternal_spec cmp key
  rcases h.itemWithKey_spec hprev with hnone | ⟨a, item, hfound, ha⟩
  · simp only [InsertsOnLayers, hrun, hnone, Option.any_some, Option.isSome_none,
      Bool.false_eq_true, false_or] at hok
    obtain ⟨hpos, hmoves⟩ := hok
    obtain ⟨layers₁, l, hlink, hq₁, hl, hlive⟩ := h.linkLowest hpos hprev
    obtain ⟨skl', L', check, hins, hlayered, -, -, hnum, hitems⟩ :=
      h.insertNew_spec hpos path key value random hlink hq₁ hl hlive (by
        intro i hi hiN hp w hw
        have hall := hmoves i hiN hi hp
        rw [hw] at hall
        have hlayer : w.2 = i := of_decide_eq_true hall
        have hmem := (hpath i hiN w hw).2.2.1
        rw [hlayer] at hmem
        exact ⟨hlayer, hmem⟩)
    refine ⟨_, skl', L', hrun, hlayered, hnum, Or.inr ⟨hnone, ⟨check, hitems⟩, ?_⟩⟩
    simp [skiplistInsert, hrun, hnone, hins]
  · refine ⟨_, _, L, hrun, h.putValue ha value, rfl, Or.inl ⟨a, item, hfound, ha, rfl, ?_⟩⟩
    simp [skiplistInsert, hrun, hfound, Heap.modify_eq_some _ ha]

theorem Layered.skiplistInsert_keeps (h : Layered skl L) (key : K) (value : V)
    (random : ℕ → ℕ) (hok : InsertsOnLayers cmp skl (.insert key value random)) :
    ∃ skl' r L', skiplistInsert cmp skl key value random = some (skl', r) ∧
      Layered skl' L' := by
  obtain ⟨-, skl', L', -, hlayered, -, ⟨a, item, -, -, -, hins⟩ | ⟨-, -, hins⟩⟩ :=
    h.skiplistInsert_cases key value random hok
  · exact ⟨skl', 1, L', hins, hlayered⟩
  · exact ⟨skl', 0, L', hins, hlayered⟩

theorem Layered.skiplistRemove_keeps (h : Layered skl L) (cmp : K → K → ℤ) (key : K) :
    ∃ skl' r L', skiplistRemove cmp skl key = some (skl', r) ∧ Layered skl' L' := by
  obtain ⟨prevItem, path, hrun, hprev, -⟩ := h.skiplistSearchInternal_spec cmp key
  rcases h.itemWithKey_spec hprev with hnone | ⟨a, item, hfound, ha⟩
  · refine ⟨skl, (-1, none), L, ?_, h⟩
    simp [skiplistRemove, hrun, hnone]
  · obtain ⟨skl', hremove, hlayered, -⟩ := h.skiplistRemoveInternal_spec ha
    refine ⟨{ skl' with count := skl'.count - 1 }, (0, some item.value), _, ?_,
      ⟨hlayered.positive, hlayered.queues, hlayered.member, hlayered.lowest,
        hlayered.nested⟩⟩
    simp [skiplistRemove, hrun, hfound, hremove]

theorem stepOp_keeps_layers (cmp : K → K → ℤ) (skl : SkipList K V) (op : SkipListOp K V)
    (h : ∃ L, Layered skl L) (hok : InsertsOnLayers cmp skl op) :
    ∃ skl' o, stepOp cmp skl op = some (skl', o) ∧ ∃ L, Layered skl' L := by
  obtain ⟨L, h⟩ := h
  cases op with
  | insert key value random =>
      obtain ⟨skl', r, L', hrun, hlayered⟩ := h.skiplistInsert_keeps key value random hok
      exact ⟨skl', (r, none), by simp [stepOp, hrun], L', hlayered⟩
  | remove key =>
      obtain ⟨skl', r, L', hrun, hlayered⟩ := h.skiplistRemove_keeps cmp key
      exact ⟨skl', r, hrun, L', hlayered⟩
  | search key =>
      obtain ⟨prevItem, path, hrun, hprev, -⟩ := h.skiplistSearchInternal_spec cmp key
      rcases h.itemWithKey_spec hprev with hnone | ⟨a, item, hfound, -⟩
      · exact ⟨skl, (0, none), by simp [stepOp, skiplistSearch, hrun, hnone], L, h⟩
      · exact ⟨skl, (0, some item.value), by simp [stepOp, skiplistSearch, hrun, hfound], L, h⟩

/-! ## Runs -/

/-- After every run whose insertions link on their own layers, with any comparator,
number of layers, probability and coin flips, the layers are as they should be. -/
theorem layers_stay_linked (cmp : K → K → ℤ) (numLayers : ℕ) (probability : ℤ)
    (ops : List (SkipListOp K V))
    (hmeet : StepsMeet (stepOp cmp) (InsertsOnLayers cmp)
      (skiplistCreate numLayers probability) ops) :
    ∃ skl os, runSteps (stepOp cmp) (skiplistCreate numLayers probability) ops =
        some (skl, os) ∧ LayerStructure skl := by
  obtain ⟨skl, os, hrun, L, hlayered⟩ := runSteps_keeps
    (fun skl op (h : ∃ L, Layered skl L) hok => stepOp_keeps_layers cmp skl op h hok) ops _
    ⟨_, layered_create numLayers probability⟩ hmeet
  exact ⟨skl, os, hrun, hlayered.layerStructure⟩

/-- Insertions in any order of the keys, on up to three layers, and a removal. -/
def mixedRun : List (SkipListOp ℕ ℕ) :=
  [.insert 5 50 fun _ => 99, .insert 3 30 fun i => if i = 1 then 99 else 0,
    .insert 7 70 fun _ => 0, .remove 5, .insert 4 40 fun _ => 99]

theorem layers_stay_linked_mixed :
    StepsMeet (stepOp natComparator.cmp) (InsertsOnLayers natComparator.cmp)
        (skiplistCreate 3 50) mixedRun ∧
      ∃ skl os, runSteps (stepOp natComparator.cmp) (skiplistCreate 3 50) mixedRun =
          some (skl, os) ∧ LayerStructure skl := by
  have hmeet : StepsMeet (stepOp natComparator.cmp) (InsertsOnLayers natComparator.cmp)
      (skiplistCreate 3 50) mixedRun := by decide
  exact ⟨hmeet, layers_stay_linked natComparator.cmp 3 50 mixedRun hmeet⟩

/-- The second item is promoted to the middle layer, where the search has come down
from the first item without moving. -/
def crossLinkRun : List (SkipListOp ℕ ℕ) :=
  [.insert 1 10 fun _ => 99, .insert 2 20 fun i => if i = 1 then 99 else 0]

theorem crossLinkRun_runs :
    (runSteps (stepOp natComparator.cmp) (skiplistCreate 3 50) crossLinkRun).isSome := by
  decide

/-- The list after the run. -/
def crossLinked : SkipList ℕ ℕ :=
  ((runSteps (stepOp natComparator.cmp) (skiplistCreate 3 50) crossLinkRun).get
    crossLinkRun_runs).1

theorem crossLinked_numLayers : 2 < crossLinked.numLayers := by decide

theorem crossLinked_top : (crossLinked.items 0).map (fun item => item.layerCheck 2) = some true := by
  decide

theorem crossLinked_next :
    (crossLinked.layers.entry (0, 2)).map TailqEntry.next = some (some (1, 1)) := by
  decide

/-- On the top layer, a wrapper of the middle layer follows the first item. -/
theorem crossLinkRun_breaks_layers :
    ∃ os, runSteps (stepOp natComparator.cmp) (skiplistCreate 3 50) crossLinkRun =
        some (crossLinked, os) ∧ ¬ LayerStructure crossLinked := by
  refine ⟨_, (Option.some_get crossLinkRun_runs).symm, ?_⟩
  rintro ⟨L, hL⟩
  obtain ⟨hholds, hmem, -⟩ := hL 2 crossLinked_numLayers
  obtain ⟨item, hitem, hcheck⟩ := Option.map_eq_some_iff.mp crossLinked_top
  obtain ⟨p, q, hsplit⟩ := List.append_of_mem ((hmem 0).mpr ⟨item, hitem, hcheck⟩)
  rw [hsplit] at hholds
  obtain ⟨prev, hentry⟩ := entry_next hholds
  have hnext := crossLinked_next
  rw [hentry, Option.map_some] at hnext
  obtain ⟨b, -, hb⟩ := Option.map_eq_some_iff.mp (Option.some.inj hnext)
  cases hb

end SkipList
end LibHL
