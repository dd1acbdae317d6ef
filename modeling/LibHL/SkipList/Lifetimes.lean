import LibHL.SkipList.Layers
import LibHL.Support.Holdings

/-!
# The lives of the values of a skip list

A value that is inserted is released when another one takes its place, when its item is
removed without asking for the value, or when the list is destroyed.  This needs the layers to
be linked as they should, but not the keys to be in order.
-/

namespace LibHL
namespace SkipList

variable {K V : Type} (cmp : K → K → ℤ)

/-! ## The code -/

/-- The operations, where a removal may ask for the value. -/
inductive OwnerOp (K V : Type) where
  | insert (key : K) (value : V) (random : ℕ → ℕ)
  | remove (key : K) (wantsValue : Bool)
  | search (key : K)

/-- The operation without the request. -/
def OwnerOp.call : OwnerOp K V → SkipListOp K V
  | .insert key value random => .insert key value random
  | .remove key _ => .remove key
  | .search key => .search key

/-- What an operation returns, and the value it passes to the callback. -/
structure OwnerAnswer (V : Type) where
  rc : ℤ
  value : Option V
  freed : Option V
deriving DecidableEq, Repr

/-- Perform an operation on a list with a callback.  An insertion that finds its key passes
the old value to it, and a removal passes the value that nobody asked for. -/
def ownerStep (skl : SkipList K V) : OwnerOp K V → Option (SkipList K V × OwnerAnswer V)
  | .insert key value random => do
      let r ← skiplistSearchInternal cmp skl key
      let found ← itemWithKey cmp skl key r.1
      let ins ← skiplistInsert cmp skl key value random
      some (ins.1, ⟨ins.2, none, found.map fun i => i.2.value⟩)
  | .remove key wantsValue => do
      let r ← skiplistRemove cmp skl key
      some (r.1, if wantsValue then ⟨r.2.1, r.2.2, none⟩ else ⟨r.2.1, none, r.2.2⟩)
  | .search key => do
      let value ← skiplistSearch cmp skl key
      some (skl, ⟨0, value, none⟩)

/-- The loop of `skiplist_destroy` along the lowest layer, with the values it passes to the
callback. -/
def destroyLoop : ℕ → Option SklItemWrapper → SkipList K V → Option (SkipList K V × List V)
  | _, none, skl => some (skl, [])
  | 0, some _, _ => none
  | fuel + 1, some w, skl => do
      let e ← skl.layers.entry w
      let item ← skl.items w.1
      let skl ← skiplistRemoveInternal skl w.1 item
      let r ← destroyLoop fuel e.next skl
      some (r.1, item.value :: r.2)

/-- `skiplist_destroy`.  The bound is one that is never reached. -/
def skiplistDestroy (skl : SkipList K V) : Option (SkipList K V × List V) :=
  destroyLoop (skl.items.brk + 1) (skl.layers.first 0) skl

/-! ## The calls -/

/-- A value that is inserted goes into the list.  What is taken out went to the caller of a
removal or to the callback; a search only shows a value. -/
def valueHoldings : Holdings (SkipList K V) (OwnerOp K V) (OwnerAnswer V) V where
  held skl := skl.items.bag SklItem.value
  brought
    | .insert _ value _ => {value}
    | _ => 0
  taken
    | .search _, _ => 0
    | _, o => o.value.toList + o.freed.toList

variable {cmp} {skl : SkipList K V} {L : ℕ → List Addr}

/-- The layers are as they should be, and there is a lowest one. -/
def Whole (skl : SkipList K V) : Prop := 0 < skl.numLayers ∧ ∃ L, Layered skl L

/-- The item goes with its value. -/
theorem Layered.skiplistRemoveInternal_balances (h : Layered skl L) {a : Addr}
    {item : SklItem K V} (ha : skl.items a = some item) :
    ∃ skl', skiplistRemoveInternal skl a item = some skl' ∧
      Layered skl' (fun j => (L j).erase a) ∧ skl'.numLayers = skl.numLayers ∧
      skl.items.bag SklItem.value = item.value ::ₘ skl'.items.bag SklItem.value := by
  obtain ⟨skl', hrun, hlayered, hitems, -, hnum⟩ := h.skiplistRemoveInternal_spec ha
  refine ⟨skl', hrun, hlayered, hnum, ?_⟩
  rw [hitems]
  exact Heap.bag_kill ha

/-- Every call balances, whatever comparator the list has. -/
theorem ownerStep_balances (skl : SkipList K V) (op : OwnerOp K V) (h : Whole skl)
    (hok : InsertsOnLayers cmp skl op.call) :
    ∃ skl' o, ownerStep cmp skl op = some (skl', o) ∧ Whole skl' ∧
      valueHoldings.Balances skl op skl' o := by
  obtain ⟨hpos, L, h⟩ := h
  cases op with
  | insert key value random =>
      obtain ⟨r, skl', L', hsearch, h', hnum, hcases⟩ :=
        h.skiplistInsert_cases key value random hok
      have hwhole : Whole skl' := ⟨hnum ▸ hpos, L', h'⟩
      rcases hcases with ⟨a, item, hfound, ha, hitems, hins⟩ | ⟨hnone, ⟨check, hitems⟩, hins⟩
      · refine ⟨skl', ⟨1, none, some item.value⟩, ?_, hwhole, ?_⟩
        · simp [ownerStep, hsearch, hfound, hins]
        · show skl'.items.bag _ + (0 + {item.value}) = skl.items.bag _ + {value}
          rw [hitems, Heap.bag_put ha, Heap.bag_kill ha, zero_add, add_comm,
            Multiset.singleton_add, add_comm _ ({value} : Multiset V), Multiset.singleton_add,
            Multiset.cons_swap]
      · refine ⟨skl', ⟨0, none, none⟩, ?_, hwhole, ?_⟩
        · simp [ownerStep, hsearch, hnone, hins]
        · show skl'.items.bag SklItem.value + (0 + 0) = skl.items.bag _ + {value}
          have hnew : ((skl.items.alloc ⟨key, value, fun _ => false⟩).1) skl.items.brk =
              some ⟨key, value, fun _ => false⟩ := by
            rw [Heap.alloc_apply, if_pos rfl]
          rw [hitems, (Heap.sameThrough_put (w := ⟨key, value, check⟩) hnew rfl).bag_eq,
            Heap.bag_alloc, add_zero, add_zero, add_comm, Multiset.singleton_add]
  | remove key wantsValue =>
      obtain ⟨prevItem, path, hrun, hprev, -⟩ := h.skiplistSearchInternal_spec cmp key
      rcases h.itemWithKey_spec hprev with hnone | ⟨a, item, hfound, ha⟩
      · refine ⟨skl, ⟨-1, none, none⟩, ?_, ⟨hpos, L, h⟩, rfl⟩
        cases wantsValue <;> simp [ownerStep, skiplistRemove, hrun, hnone]
      · obtain ⟨skl', hremove, h', hnum, hbag⟩ := h.skiplistRemoveInternal_balances ha
        have hwhole : Whole { skl' with count := skl'.count - 1 } :=
          ⟨hnum ▸ hpos, _, h'.positive, h'.queues, h'.member, h'.lowest, h'.nested⟩
        refine ⟨{ skl' with count := skl'.count - 1 },
          if wantsValue then ⟨0, some item.value, none⟩ else ⟨0, none, some item.value⟩, ?_,
          hwhole, ?_⟩
        · simp [ownerStep, skiplistRemove, hrun, hfound, hremove]
        · show skl'.items.bag SklItem.value + _ = skl.items.bag SklItem.value + 0
          rw [hbag, add_zero, ← Multiset.singleton_add, add_comm ({item.value} : Multiset V)]
          cases wantsValue <;> rfl
  | search key =>
      obtain ⟨prevItem, path, hrun, hprev, -⟩ := h.skiplistSearchInternal_spec cmp key
      rcases h.itemWithKey_spec hprev with hnone | ⟨a, item, hfound, -⟩
      · refine ⟨skl, ⟨0, none, none⟩, ?_, ⟨hpos, L, h⟩, rfl⟩
        simp [ownerStep, skiplistSearch, hrun, hnone]
      · refine ⟨skl, ⟨0, some item.value, none⟩, ?_, ⟨hpos, L, h⟩, rfl⟩
        simp [ownerStep, skiplistSearch, hrun, hfound]

/-! ## The end -/

/-- Along the lowest layer every item is removed. -/
theorem destroyLoop_spec : ∀ (l : List Addr) (fuel : ℕ) (skl : SkipList K V) (L : ℕ → List Addr),
    L 0 = l → l.length ≤ fuel → 0 < skl.numLayers → Layered skl L →
    ∃ skl' freed, destroyLoop fuel (l.head?.map fun a => (a, 0)) skl = some (skl', freed) ∧
      (∀ a, skl'.items a = none) ∧ (freed : Multiset V) = skl.items.bag SklItem.value := by
  intro l
  induction l with
  | nil =>
      intro fuel skl L hl _ hpos h
      have hnone : ∀ a, skl.items a = none := by
        intro a
        by_contra hne
        have hmem := (h.mem_lowest hpos).mpr (Option.ne_none_iff_exists'.mp hne)
        rw [hl] at hmem
        cases hmem
      refine ⟨skl, [], by rw [destroyLoop.eq_def]; rfl, hnone, ?_⟩
      refine (Heap.bag_eq_zero_iff.mpr (Finset.eq_empty_iff_forall_notMem.mpr fun a ha => ?_)).symm
      rw [Heap.mem_live, hnone a] at ha
      cases ha
  | cons a l ih =>
      intro fuel skl L hl hle hpos h
      obtain ⟨k, rfl⟩ := Nat.exists_eq_succ_of_ne_zero (Nat.ne_of_gt (Nat.lt_of_lt_of_le
        (Nat.succ_pos l.length) hle))
      have hmem : a ∈ L 0 := hl ▸ List.mem_cons_self
      obtain ⟨item, ha⟩ := h.live_of_mem hpos hmem
      have hqueue := h.queues 0 hpos
      rw [hl] at hqueue
      obtain ⟨prev, hentry⟩ := entry_next (p := []) hqueue
      obtain ⟨skl₁, hremove, h₁, hnum, hbag⟩ := h.skiplistRemoveInternal_balances ha
      obtain ⟨skl', freed, hloop, hnone, hfreed⟩ := ih k skl₁ _
        (by rw [hl]; exact List.erase_cons_head a l) (Nat.le_of_succ_le_succ hle) (hnum ▸ hpos) h₁
      refine ⟨skl', item.value :: freed, ?_, hnone, ?_⟩
      · simp [destroyLoop, hentry, ha, hremove, hloop]
      · rw [hbag, ← hfreed]
        rfl

/-- In every run whose insertions link on their own layers, ended by `skiplist_destroy`, every
value that was brought in leaves exactly once, to the caller of a removal or to the callback,
and no item is left.  The order of the keys plays no part in this. -/
theorem skiplist_values_leave_once {numLayers : ℕ} (hpos : 0 < numLayers) (probability : ℤ)
    (ops : List (OwnerOp K V))
    (hmeet : StepsMeet (ownerStep cmp) (fun skl op => InsertsOnLayers cmp skl op.call)
      (skiplistCreate numLayers probability) ops) :
    ∃ skl os skl' freed, runSteps (ownerStep cmp) (skiplistCreate numLayers probability) ops =
        some (skl, os) ∧ skiplistDestroy skl = some (skl', freed) ∧ (∀ a, skl'.items a = none) ∧
      (freed : Multiset V) + valueHoldings.allTaken ops os = valueHoldings.allBrought ops := by
  obtain ⟨skl, os, hrun, ⟨hposition, L, h⟩, hbal⟩ := valueHoldings.run_balances
    (fun skl op h hok => ownerStep_balances skl op h hok) ops _
    ⟨hpos, _, layered_create numLayers probability⟩ hmeet
  obtain ⟨skl', freed, hdestroy, hnone, hfreed⟩ := destroyLoop_spec (L 0) (skl.items.brk + 1) skl L
    rfl ((h.length_layer_le hposition).trans (Nat.le_succ _)) hposition h
  refine ⟨skl, os, skl', freed, hrun, ?_, hnone, ?_⟩
  · rw [skiplistDestroy, (h.queues 0 hposition).first, head?_wrappersOf]
    exact hdestroy
  · have hempty : valueHoldings.held (skiplistCreate numLayers probability : SkipList K V) = 0 :=
      rfl
    rw [hfreed, ← zero_add (valueHoldings.allBrought ops), ← hempty]
    exact hbal

/-- A smallest key is inserted last, so that it goes to the wrong end, an item is updated, and
one is removed. -/
def untidyRun : List (OwnerOp ℕ ℕ) :=
  [.insert 5 50 fun _ => 99, .insert 7 70 fun _ => 0, .insert 5 51 fun _ => 0, .remove 7 true,
    .insert 3 30 fun _ => 0, .search 3]

theorem skiplist_values_leave_once_untidy :
    StepsMeet (ownerStep natComparator.cmp) (fun skl op => InsertsOnLayers natComparator.cmp skl
        op.call) (skiplistCreate 3 50) untidyRun ∧
      ∃ skl os skl' freed, runSteps (ownerStep natComparator.cmp) (skiplistCreate 3 50)
          untidyRun = some (skl, os) ∧ skiplistDestroy skl = some (skl', freed) ∧
        (∀ a, skl'.items a = none) ∧
        (freed : Multiset ℕ) + valueHoldings.allTaken untidyRun os =
          valueHoldings.allBrought untidyRun := by
  have hmeet : StepsMeet (ownerStep natComparator.cmp) (fun skl op => InsertsOnLayers
      natComparator.cmp skl op.call) (skiplistCreate 3 50) untidyRun := by decide
  exact ⟨hmeet, skiplist_values_leave_once (by decide) 50 untidyRun hmeet⟩

end SkipList
end LibHL
