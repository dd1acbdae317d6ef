import LibHL.SkipList.Operations
import LibHL.Support.FiniteMap
import LibHL.Support.Run

/-!
# Runs of the skip list

The skip list is compared with a finite map.  An insertion of a new key that is
smaller than all others puts it at the wrong end of the lowest layer, and one
whose search path leaves a layer without moving along it is linked into a
higher layer.  The comparison is for the runs without such insertions.
-/

namespace LibHL
namespace SkipList

variable {K V : Type}

/-- The operations of the skip list; an insertion comes with what it draws from
`random()`. -/
inductive SkipListOp (K V : Type) where
  | insert (key : K) (value : V) (random : ℕ → ℕ)
  | remove (key : K)
  | search (key : K)

/-- Perform an operation; the output is the return code and the value handed
out. -/
def stepOp (cmp : K → K → ℤ) (skl : SkipList K V) :
    SkipListOp K V → Option (SkipList K V × ℤ × Option V)
  | .insert key value random => do
      let r ← skiplistInsert cmp skl key value random
      some (r.1, r.2, none)
  | .remove key => skiplistRemove cmp skl key
  | .search key => do
      let value ← skiplistSearch cmp skl key
      some (skl, 0, value)

/-- What the operations do to a finite map. -/
def mapRef [DecidableEq K] (m : FiniteMap K V) :
    SkipListOp K V → FiniteMap K V × ℤ × Option V
  | .insert key value _ =>
      (m.insert key value, if (m.lookup key).isSome then 1 else 0, none)
  | .remove key =>
      (m.erase key, if (m.lookup key).isSome then 0 else -1, m.lookup key)
  | .search key => (m, 0, m.lookup key)

/-! ## Insertions that go right -/

instance decidableNotAbove (cmp : K → K → ℤ) (items : Heap (SklItem K V)) (key : K)
    (a : Addr) : Decidable (NotAbove cmp items key a) :=
  match h : items a with
  | none => isFalse (by simp [NotAbove, h])
  | some item => decidable_of_iff (cmp item.key key ≤ 0) (by simp [NotAbove, h])

/-- Some item has the key. -/
def Present (cmp : K → K → ℤ) (skl : SkipList K V) (key : K) : Prop :=
  ∃ a ∈ skl.items.live, (skl.items a).any (fun item => cmp item.key key = 0) = true

instance decidablePresent (cmp : K → K → ℤ) (skl : SkipList K V) (key : K) :
    Decidable (Present cmp skl key) :=
  inferInstanceAs (Decidable (∃ a ∈ skl.items.live,
    (skl.items a).any (fun item => cmp item.key key = 0) = true))

/-- On each upper layer the new item is promoted to, the search has moved along
that layer, or has passed nothing on it and on the layers above. -/
def MovesOnLayers (skl : SkipList K V) (random : ℕ → ℕ) (path : ℕ → Option SklItemWrapper) :
    Prop :=
  ∀ i, i < skl.numLayers → 0 < i → promoted skl.probability random i = true →
    (path i).all (fun w => w.2 = i) = true

instance decidableMovesOnLayers (skl : SkipList K V) (random : ℕ → ℕ)
    (path : ℕ → Option SklItemWrapper) : Decidable (MovesOnLayers skl random path) :=
  Nat.decidableBallLT skl.numLayers fun i _ =>
    0 < i → promoted skl.probability random i = true →
      (path i).all (fun w => w.2 = i) = true

/-- The insertions that go right: the list is empty or has a key that is not
greater, and a new key is linked into the layers it belongs to. -/
def InsertsInPlace (cmp : K → K → ℤ) (skl : SkipList K V) : SkipListOp K V → Prop
  | .insert key _ random =>
      (skl.layers.first 0 = none ∨
        ∃ a ∈ skl.items.live, NotAbove cmp skl.items key a) ∧
      (Present cmp skl key ∨
        match skiplistSearchInternal cmp skl key with
        | none => True
        | some r => MovesOnLayers skl random r.2)
  | .remove _ => True
  | .search _ => True

instance decidableInsertsInPlace (cmp : K → K → ℤ) (skl : SkipList K V)
    (op : SkipListOp K V) : Decidable (InsertsInPlace cmp skl op) :=
  match op with
  | .insert key value random =>
      match h : skiplistSearchInternal cmp skl key with
      | none =>
          decidable_of_iff (skl.layers.first 0 = none ∨
            ∃ a ∈ skl.items.live, NotAbove cmp skl.items key a)
            (by simp [InsertsInPlace, h])
      | some r =>
          decidable_of_iff ((skl.layers.first 0 = none ∨
              ∃ a ∈ skl.items.live, NotAbove cmp skl.items key a) ∧
            (Present cmp skl key ∨ MovesOnLayers skl random r.2))
            (by simp [InsertsInPlace, h])
  | .remove _ => isTrue trivial
  | .search _ => isTrue trivial

/-! ## One operation -/

variable [DecidableEq K] {c : OrderComparator K} {skl : SkipList K V} {L : ℕ → List Addr}
  {m : FiniteMap K V} {key : K}

/-- A well-formed list that holds the pairs of a finite map. -/
def Simulates (c : OrderComparator K) (skl : SkipList K V) (m : FiniteMap K V) : Prop :=
  ∃ L, Wf c skl L ∧ m.entries = skl.items.bag pair

theorem lookup_of_item (hm : m.entries = skl.items.bag pair) {a : Addr} {item : SklItem K V}
    (ha : skl.items a = some item) : m.lookup item.key = some item.value := by
  have hmem : pair item ∈ m.entries := by
    rw [hm]
    exact Heap.mem_bag_of_eq_some ha
  exact FiniteMap.lookup_of_mem hmem

theorem lookup_eq_none (hm : m.entries = skl.items.bag pair)
    (habsent : ∀ a item, skl.items a = some item → item.key ≠ key) : m.lookup key = none := by
  cases hlookup : m.lookup key with
  | none => rfl
  | some v =>
      have hmem := Finmap.lookup_eq_some_iff.mp hlookup
      rw [hm] at hmem
      obtain ⟨a, item, ha, heq⟩ := Heap.exists_of_mem_bag hmem
      cases heq
      exact absurd rfl (habsent a item ha)

theorem skiplistSearch_refines (h : Wf c skl L) (hm : m.entries = skl.items.bag pair)
    (key : K) : skiplistSearch c.cmp skl key = some (m.lookup key) := by
  obtain ⟨prevItem, path, hrun, hreached, -⟩ := skiplistSearchInternal_spec h key
  rcases itemWithKey_spec h hreached with ⟨a, item, hfound, ha, rfl⟩ | ⟨hfound, habsent⟩
  · simp [skiplistSearch, hrun, hfound, lookup_of_item hm ha]
  · simp [skiplistSearch, hrun, hfound, lookup_eq_none hm habsent]

theorem skiplistRemove_refines (h : Simulates c skl m) (key : K) :
    ∃ skl', skiplistRemove c.cmp skl key = some (skl', (mapRef m (.remove key)).2) ∧
      Simulates c skl' (mapRef m (.remove key)).1 := by
  obtain ⟨L, hwf, hm⟩ := h
  obtain ⟨prevItem, path, hrun, hreached, -⟩ := skiplistSearchInternal_spec hwf key
  rcases itemWithKey_spec hwf hreached with ⟨a, item, hfound, ha, rfl⟩ | ⟨hfound, habsent⟩
  · have hlookup := lookup_of_item hm ha
    obtain ⟨skl', L', hremove, hwf', hbag⟩ := skiplistRemoveInternal_spec hwf ha
    refine ⟨{ skl' with count := skl'.count - 1 }, ?_, L', hwf', ?_⟩
    · simp [skiplistRemove, hrun, hfound, hremove, mapRef, hlookup]
    · have hsplit : m.entries = pair item ::ₘ skl'.items.bag pair := hm.trans hbag
      exact FiniteMap.entries_erase hsplit
  · have hlookup := lookup_eq_none hm habsent
    refine ⟨skl, ?_, L, hwf, ?_⟩
    · simp [skiplistRemove, hrun, hfound, mapRef, hlookup]
    · show (m.erase key).entries = _
      rw [FiniteMap.erase_of_lookup_none hlookup, hm]

omit [DecidableEq K] in
/-- Where the search has passed nothing, no item is below the key. -/
theorem lowest_eq_nil (h : Wf c skl L) (hreached : Reached c.cmp skl L key none)
    (hlow : skl.layers.first 0 = none ∨
      ∃ a ∈ skl.items.live, NotAbove c.cmp skl.items key a) : L 0 = [] := by
  rcases hreached with ⟨-, habove⟩ | ⟨w, p, q, hw, -⟩
  · rcases hlow with hfirst | ⟨a, ha, item, hitem, hle⟩
    · rw [(h.queues 0 h.positive).first, head?_wrappersOf, Option.map_eq_none_iff] at hfirst
      exact List.head?_eq_none_iff.mp hfirst
    · obtain ⟨x, hx, hpos⟩ := habove a (h.mem_lowest.mpr ⟨item, hitem⟩)
      rw [hitem] at hx
      cases hx
      omega
  · cases hw

theorem skiplistInsert_refines (h : Simulates c skl m) (key : K) (value : V)
    (random : ℕ → ℕ) (hok : InsertsInPlace c.cmp skl (.insert key value random)) :
    ∃ skl', skiplistInsert c.cmp skl key value random =
        some (skl', (mapRef m (.insert key value random)).2.1) ∧
      Simulates c skl' (mapRef m (.insert key value random)).1 := by
  obtain ⟨L, hwf, hm⟩ := h
  obtain ⟨prevItem, path, hrun, hreached, hpassed⟩ := skiplistSearchInternal_spec hwf key
  rcases itemWithKey_spec hwf hreached with ⟨a, item, hfound, ha, rfl⟩ | ⟨hfound, habsent⟩
  · have hlookup := lookup_of_item hm ha
    let items' := skl.items.put a { item with value := value }
    refine ⟨{ skl with items := items' }, ?_, L, hwf.putValue ha value, ?_⟩
    · simp [skiplistInsert, hrun, hfound, Heap.modify_eq_some _ ha, mapRef, hlookup, items']
    · show (m.insert item.key value).entries = items'.bag pair
      have hsplit : m.entries = pair item ::ₘ (skl.items.kill a).bag pair :=
        hm.trans (Heap.bag_kill ha)
      have herase : (m.erase item.key).entries = (skl.items.kill a).bag pair :=
        FiniteMap.entries_erase hsplit
      rw [FiniteMap.entries_insert, herase, Heap.bag_put ha]
      rfl
  · have hlookup := lookup_eq_none hm habsent
    obtain ⟨hlow, hmoves⟩ := hok
    have hmoves' : MovesOnLayers skl random path := by
      rw [hrun] at hmoves
      refine hmoves.resolve_left ?_
      rintro ⟨a, ha, hany⟩
      obtain ⟨item, hitem⟩ := Heap.exists_of_mem_live ha
      rw [hitem] at hany
      exact habsent a item hitem (c.eq_of_cmp _ _ (of_decide_eq_true hany))
    have hpath : ∀ i, 0 < i → i < skl.numLayers → promoted skl.probability random i = true →
        OnLayer L i (path i) := by
      intro i hi hiN hp w hw
      have hall := hmoves' i hiN hi hp
      rw [hw] at hall
      have hlayer : w.2 = i := of_decide_eq_true hall
      have hmem := (hpassed i hiN w hw).2.2.1
      rw [hlayer] at hmem
      exact ⟨hlayer, hmem⟩
    have hempty : prevItem = none → L 0 = [] := by
      rintro rfl
      exact lowest_eq_nil hwf hreached hlow
    obtain ⟨skl', L', hins, hwf', hbag⟩ :=
      insertNew_spec hwf value hreached hempty habsent hpath
    refine ⟨skl', ?_, L', hwf', ?_⟩
    · simp [skiplistInsert, hrun, hfound, hins, mapRef, hlookup]
    · show (m.insert key value).entries = skl'.items.bag pair
      rw [FiniteMap.entries_insert, FiniteMap.erase_of_lookup_none hlookup, hm, hbag]

/-- One operation. -/
theorem stepOp_refines (h : Simulates c skl m) (op : SkipListOp K V)
    (hok : InsertsInPlace c.cmp skl op) :
    ∃ skl', stepOp c.cmp skl op = some (skl', (mapRef m op).2) ∧
      Simulates c skl' (mapRef m op).1 := by
  cases op with
  | insert key value random =>
      obtain ⟨skl', hrun, hsim⟩ := skiplistInsert_refines h key value random hok
      exact ⟨skl', by simp [stepOp, hrun, mapRef], hsim⟩
  | remove key => exact skiplistRemove_refines h key
  | search key =>
      obtain ⟨L, hwf, hm⟩ := h
      refine ⟨skl, ?_, L, hwf, hm⟩
      simp [stepOp, skiplistSearch_refines hwf hm, mapRef]

/-! ## Runs -/

omit [DecidableEq K] in
theorem simulates_create (c : OrderComparator K) {numLayers : ℕ} (hpos : 0 < numLayers)
    (probability : ℤ) :
    Simulates c (skiplistCreate numLayers probability : SkipList K V) ∅ := by
  refine ⟨fun _ => [], ⟨hpos, ?_, ?_, ?_, ?_, List.Pairwise.nil, rfl⟩, rfl⟩
  · intro i hi
    exact ⟨List.nodup_nil, rfl, if_pos hi, trivial⟩
  · intro i _ a
    constructor
    · intro ha
      cases ha
    · rintro ⟨item, hitem, -⟩
      cases hitem
  · intro a item hitem
    cases hitem
  · intro a item i hitem
    cases hitem

/-- Every run whose insertions go right, with any number of layers, probability
and coin flips, answers as a finite map that starts empty, and counts its keys. -/
theorem skiplist_refines_finiteMap (c : OrderComparator K) {numLayers : ℕ}
    (hpos : 0 < numLayers) (probability : ℤ) (ops : List (SkipListOp K V))
    (hmeet : StepsMeet (stepOp c.cmp) (InsertsInPlace c.cmp)
      (skiplistCreate numLayers probability) ops) :
    ∃ skl, runSteps (stepOp c.cmp) (skiplistCreate numLayers probability) ops =
        some (skl, (refRun mapRef ∅ ops).2) ∧
      skl.skiplistCount = (refRun mapRef (∅ : FiniteMap K V) ops).1.keys.card := by
  obtain ⟨skl, hrun, L, hwf, hm⟩ := runSteps_refines (R := Simulates c)
    (fun skl m op h hok => stepOp_refines h op hok) ops
    (skiplistCreate numLayers probability) ∅ (simulates_create c hpos probability) hmeet
  refine ⟨skl, hrun, ?_⟩
  rw [FiniteMap.card_keys, hm, Heap.card_bag]
  exact hwf.count

/-- Ascending insertions on up to three layers, an update, and removals. -/
def ascendingRun : List (SkipListOp ℕ ℕ) :=
  [.insert 1 10 fun _ => 0, .insert 4 40 fun i => if i = 1 then 99 else 0,
    .insert 7 70 fun _ => 99, .insert 4 41 fun _ => 0, .search 4, .remove 4, .search 4,
    .search 7]

theorem skiplist_refines_finiteMap_ascending :
    StepsMeet (stepOp natComparator.cmp) (InsertsInPlace natComparator.cmp)
        (skiplistCreate 3 50) ascendingRun ∧
      ∃ skl, runSteps (stepOp natComparator.cmp) (skiplistCreate 3 50) ascendingRun =
          some (skl, (refRun mapRef ∅ ascendingRun).2) ∧
        skl.skiplistCount = (refRun mapRef (∅ : FiniteMap ℕ ℕ) ascendingRun).1.keys.card := by
  have hmeet : StepsMeet (stepOp natComparator.cmp) (InsertsInPlace natComparator.cmp)
      (skiplistCreate 3 50) ascendingRun := by decide
  exact ⟨hmeet, skiplist_refines_finiteMap natComparator (by decide) 50 ascendingRun hmeet⟩

/-- A key that is smaller than the one present. -/
def descendingRun : List (SkipListOp ℕ ℕ) :=
  [.insert 2 20 fun _ => 0, .insert 1 10 fun _ => 0, .search 1]

/-- The smaller key is not found after its insertion. -/
theorem descendingRun_loses_key :
    (runSteps (stepOp natComparator.cmp) (skiplistCreate 1 50) descendingRun).map
        (fun r => r.2) = some [(0, none), (0, none), (0, none)] ∧
      (refRun mapRef (∅ : FiniteMap ℕ ℕ) descendingRun).2 =
        [(0, none), (0, none), (0, some 10)] := by
  constructor
  · decide
  · rfl

end SkipList
end LibHL
