import LibHL.HashTable.Operations

/-!
# Clearing and iterating

`ht_clear`, the iterators and the two collecting functions walk the iterator
list bucket by bucket.  Each of them is described here as one pass over the
stored items in the order of that list.
-/

namespace LibHL
namespace HashTable

variable {t : HashTable}

/-- What the free callback is called with when items are removed. -/
def releasedItems (t : HashTable) (its : List HtItem) : List (Option Data) :=
  if t.freeItemCb then its.map HtItem.data else []

theorem foldl_callFreeItemCb (its : List HtItem) :
    ∀ t : HashTable, its.foldl (fun t it => t.callFreeItemCb it.data) t =
      { t with released := t.released ++ t.releasedItems its } := by
  induction its with
  | nil =>
      intro t
      simp [releasedItems]
  | cons it its ih =>
      intro t
      rw [List.foldl_cons, ih]
      by_cases hcb : t.freeItemCb
      · simp [callFreeItemCb, releasedItems, hcb]
      · simp [callFreeItemCb, releasedItems, hcb]

theorem bucketItems_congr {b b' : Buckets} {a : Addr} {as : List Addr}
    (hother : ∀ c, c ≠ a → b'.lists c = b.lists c) (ha : a ∉ as) :
    as.flatMap (bucketItems b') = as.flatMap (bucketItems b) := by
  apply List.flatMap_congr
  intro c hc
  have hca : c ≠ a := fun heq => ha (heq ▸ hc)
  simp [bucketItems, hother c hca]

/-! ## `ht_clear` -/

/-- Emptying a slot lists one bucket less in the array. -/
theorem filterMap_unset_perm {items : List (Option Addr)} {i : ℕ} {a : Addr}
    (hi : items[i]? = some (some a)) :
    (items.filterMap id).Perm (a :: (items.set i none).filterMap id) := by
  obtain ⟨hlt, hget⟩ := List.getElem?_eq_some_iff.mp hi
  have hnone : (items.set i none)[i]? = some none := List.getElem?_set_self hlt
  have hback : (items.set i none).set i (some a) = items := by
    rw [List.set_set, ← hget, List.set_getElem_self]
  have hperm := BucketsInv.filterMap_set_perm hnone a
  rwa [hback] at hperm

/-- One round of `ht_clear` removes the first registered bucket. -/
theorem clearList_eq (h : TableInv t) {a : Addr} {as : List Addr}
    (hiter : t.iteratorList = a :: as) :
    ∃ t', t.clearList a = some t' ∧ TableInv t' ∧ t'.iteratorList = as ∧
      Successor t t' ∧ t'.brk = t.brk ∧
      t'.released = t.released ++ t.releasedItems (bucketItems t.toBuckets a) ∧
      as.flatMap (bucketItems t'.toBuckets) = as.flatMap (bucketItems t.toBuckets) := by
  obtain ⟨l, hl, hslot, -⟩ := h.buckets.bucket_of_mem (a := a) (by simp [hiter])
  have hitems : bucketItems t.toBuckets a = l.head := bucketItems_of_eq_some hl
  have hnd := h.buckets.nodup
  rw [hiter, List.nodup_cons] at hnd
  have hkill : ∀ c, c ≠ a → t.lists.kill a c = t.lists c := by
    intro c hca
    simp [Heap.kill_apply, hca]
  have hflat : as.flatMap (bucketItems
        ⟨t.lists.kill a, t.items.set l.index none, as⟩) =
      as.flatMap (bucketItems t.toBuckets) := bucketItems_congr hkill hnd.1
  refine ⟨{ t with
    lists := t.lists.kill a
    items := t.items.set l.index none
    iteratorList := as
    count := t.count - l.head.length
    released := t.released ++ t.releasedItems l.head }, ?_, ⟨⟨h.buckets.sizePos, ?_, ?_,
      hnd.2, ?_⟩, h.fits, ?_⟩, rfl, ⟨rfl, rfl, rfl, Or.inl rfl⟩, rfl, by rw [hitems], hflat⟩
  · simp [clearList, hl, foldl_callFreeItemCb, Heap.free, hiter]
  · simp [h.buckets.itemsLength]
  · have hperm := (filterMap_unset_perm hslot).symm.trans h.buckets.registered
    rw [hiter] at hperm
    exact (List.perm_cons a).mp hperm
  · intro j c hj
    by_cases hij : l.index = j
    · subst j
      rw [List.getElem?_set_self (List.getElem?_eq_some_iff.mp hslot).1] at hj
      cases hj
    · rw [List.getElem?_set_ne hij] at hj
      have hca : c ≠ a := by
        rintro rfl
        exact hij (h.buckets.slot_unique hslot hj)
      simp only [hkill c hca]
      exact h.buckets.bucket j c hj
  · have hstored : stored t.toBuckets = l.head ++ as.flatMap (bucketItems t.toBuckets) := by
      rw [stored, hiter, List.flatMap_cons, hitems]
    have hcount := h.count
    rw [hstored, List.length_append] at hcount
    simp only [stored, hflat, hcount, Nat.add_sub_cancel_left]

/-- `ht_clear` releases all stored items, in the order of the iterator list. -/
theorem htClear_eq (h : TableInv t) :
    ∃ t', t.htClear = some t' ∧ TableInv t' ∧ Successor t t' ∧ t'.brk = t.brk ∧
      stored t'.toBuckets = [] ∧
      t'.released = t.released ++ t.releasedItems (stored t.toBuckets) := by
  have hloop : ∀ (as : List Addr) (t : HashTable), TableInv t → t.iteratorList = as →
      ∃ t', as.foldlM clearList t = some t' ∧ TableInv t' ∧ Successor t t' ∧
        t'.brk = t.brk ∧ stored t'.toBuckets = [] ∧
        t'.released = t.released ++
          t.releasedItems (as.flatMap (bucketItems t.toBuckets)) := by
    intro as
    induction as with
    | nil =>
        intro t h hiter
        exact ⟨t, rfl, h, Successor.refl t, rfl, by simp [stored, hiter],
          by simp [releasedItems]⟩
    | cons a as ih =>
        intro t h hiter
        obtain ⟨t₁, hrun₁, hinv₁, hiter₁, hsucc₁, hbrk₁, hrel₁, hflat⟩ :=
          clearList_eq h hiter
        obtain ⟨t₂, hrun₂, hinv₂, hsucc₂, hbrk₂, hstored, hrel₂⟩ := ih t₁ hinv₁ hiter₁
        refine ⟨t₂, ?_, hinv₂, hsucc₁.trans hsucc₂, hbrk₂.trans hbrk₁, hstored, ?_⟩
        · simp [List.foldlM_cons, hrun₁, hrun₂]
        · rw [hrel₂, hrel₁, hflat, List.flatMap_cons]
          by_cases hcb : t.freeItemCb
          · simp [releasedItems, hsucc₁.freeItemCb, hcb]
          · simp [releasedItems, hsucc₁.freeItemCb, hcb]
  exact hloop t.iteratorList t h rfl

/-! ## The iterators -/

/-- Iterating over two stretches of items one after the other. -/
theorem foreachItems_append (cb : PairIterator) (ys : List HtItem) :
    ∀ (xs : List HtItem) (visits : List Visit),
      foreachItems cb visits (xs ++ ys) =
        if (foreachItems cb visits xs).stop then
          { foreachItems cb visits xs with
            kept := (foreachItems cb visits xs).kept ++ ys }
        else
          ⟨(foreachItems cb (foreachItems cb visits xs).visits ys).visits,
            (foreachItems cb visits xs).kept ++
              (foreachItems cb (foreachItems cb visits xs).visits ys).kept,
            (foreachItems cb visits xs).removed ++
              (foreachItems cb (foreachItems cb visits xs).visits ys).removed,
            (foreachItems cb (foreachItems cb visits xs).visits ys).stop⟩ := by
  intro xs
  induction xs with
  | nil =>
      intro visits
      simp [foreachItems]
  | cons x xs ih =>
      intro visits
      by_cases hcont : cb (visits ++ [x.visit]) = htIteratorContinue
      · simp only [List.cons_append, foreachItems, hcont, if_true, ih]
        split
        · rfl
        · rfl
      by_cases hstop : cb (visits ++ [x.visit]) = htIteratorStop
      · simp only [List.cons_append, foreachItems, if_neg hcont, if_pos hstop, if_true]
      by_cases hrem : cb (visits ++ [x.visit]) = htIteratorRemoveAndStop
      · simp only [List.cons_append, foreachItems, if_neg hcont, if_neg hstop,
          if_pos hrem, if_true]
      · simp only [List.cons_append, foreachItems, if_neg hcont, if_neg hstop,
          if_neg hrem, ih]
        split
        · rfl
        · rfl

/-- Every item is kept or removed. -/
theorem foreachItems_perm (cb : PairIterator) :
    ∀ (its : List HtItem) (visits : List Visit),
      its.Perm ((foreachItems cb visits its).removed ++ (foreachItems cb visits its).kept) := by
  intro its
  induction its with
  | nil =>
      intro visits
      exact List.Perm.refl _
  | cons it its ih =>
      intro visits
      have hrest := ih (visits ++ [it.visit])
      by_cases hcont : cb (visits ++ [it.visit]) = htIteratorContinue
      · simp only [foreachItems, hcont, if_true]
        exact (hrest.cons it).trans List.perm_middle.symm
      by_cases hstop : cb (visits ++ [it.visit]) = htIteratorStop
      · simp only [foreachItems, if_neg hcont, if_pos hstop]
        exact List.Perm.refl _
      by_cases hrem : cb (visits ++ [it.visit]) = htIteratorRemoveAndStop
      · simp only [foreachItems, if_neg hcont, if_neg hstop, if_pos hrem]
        exact List.Perm.refl _
      · simp only [foreachItems, if_neg hcont, if_neg hstop, if_neg hrem]
        exact hrest.cons it

/-- A callback that always continues sees every item, and removes none. -/
theorem foreachItems_continue {cb : PairIterator}
    (hcb : ∀ visits, cb visits = htIteratorContinue) :
    ∀ (its : List HtItem) (visits : List Visit),
      foreachItems cb visits its = ⟨visits ++ its.map HtItem.visit, its, [], false⟩ := by
  intro its
  induction its with
  | nil =>
      intro visits
      simp [foreachItems]
  | cons it its ih =>
      intro visits
      simp [foreachItems, hcb, ih]

/-- One round of the outer loop of `ht_foreach_pair`. -/
theorem foreachList_eq (h : TableInv t) {done as : List Addr} {a : Addr}
    (hiter : t.iteratorList = done ++ a :: as) (cb : PairIterator)
    (visits : List Visit) :
    ∃ b, setItems t.toBuckets a
        (foreachItems cb visits (bucketItems t.toBuckets a)).kept = some b ∧
      TableInv { t with
        toBuckets := b
        count := t.count - (foreachItems cb visits (bucketItems t.toBuckets a)).removed.length } ∧
      b.iteratorList = t.iteratorList ∧
      bucketItems b a = (foreachItems cb visits (bucketItems t.toBuckets a)).kept ∧
      done.flatMap (bucketItems b) = done.flatMap (bucketItems t.toBuckets) ∧
      as.flatMap (bucketItems b) = as.flatMap (bucketItems t.toBuckets) := by
  obtain ⟨l, hl, hslot, hplaced⟩ := h.buckets.bucket_of_mem (a := a) (by simp [hiter])
  have hitems : bucketItems t.toBuckets a = l.head := bucketItems_of_eq_some hl
  rw [hitems]
  have hperm := foreachItems_perm cb l.head visits
  have hkept : ∀ it ∈ (foreachItems cb visits l.head).kept,
      Placed t.seed t.size l.index it := by
    intro it hit
    exact hplaced it (hperm.mem_iff.mpr (by simp [hit]))
  obtain ⟨b, rest, hb, hinv, -, hiter', hself, hother, hold, hnew⟩ :=
    h.buckets.setItems_eq hslot hl hkept
  have hnd := h.buckets.nodup
  rw [hiter, List.nodup_append, List.nodup_cons] at hnd
  have hdone : a ∉ done := fun hmem => hnd.2.2 a hmem a (by simp) rfl
  refine ⟨b, hb, ⟨hinv, h.fits, ?_⟩, hiter', bucketItems_of_eq_some hself,
    bucketItems_congr hother hdone, bucketItems_congr hother hnd.2.1.1⟩
  have hlen := hperm.length_eq
  rw [List.length_append] at hlen
  simp only [h.count, hold.length_eq, hnew.length_eq, List.length_append, hlen]
  omega

/-- The outer loop sweeps over the items of the buckets it has not reached. -/
theorem foreachLists_eq (cb : PairIterator) :
    ∀ (as done : List Addr) (t : HashTable) (visits : List Visit), TableInv t →
      t.iteratorList = done ++ as →
      ∃ t', foreachLists cb as t visits = some (t',
          (foreachItems cb visits (as.flatMap (bucketItems t.toBuckets))).visits) ∧
        TableInv t' ∧ Successor t t' ∧ t'.brk = t.brk ∧
        t'.released = t.released ++ t.releasedItems
          (foreachItems cb visits (as.flatMap (bucketItems t.toBuckets))).removed ∧
        stored t'.toBuckets = done.flatMap (bucketItems t.toBuckets) ++
          (foreachItems cb visits (as.flatMap (bucketItems t.toBuckets))).kept := by
  intro as
  induction as with
  | nil =>
      intro done t visits h hiter
      refine ⟨t, rfl, h, Successor.refl t, rfl, ?_, ?_⟩
      · simp [foreachItems, releasedItems]
      · simp [stored, hiter, foreachItems]
  | cons a as ih =>
      intro done t visits h hiter
      obtain ⟨b, hb, hinv, hiter', hself, hdone, has⟩ := foreachList_eq h hiter cb visits
      obtain ⟨l, hl, -, -⟩ := h.buckets.bucket_of_mem (a := a) (by simp [hiter])
      have hitems : bucketItems t.toBuckets a = l.head := bucketItems_of_eq_some hl
      rw [hitems] at hb hinv hself
      have hof : itemsOf t.toBuckets a = some l.head := by simp [itemsOf, hl]
      rw [List.flatMap_cons, hitems, foreachItems_append]
      by_cases hstop : (foreachItems cb visits l.head).stop
      · refine ⟨{ t with
          toBuckets := b
          count := t.count - (foreachItems cb visits l.head).removed.length
          released := t.released ++
            t.releasedItems (foreachItems cb visits l.head).removed }, ?_,
          ⟨hinv.buckets, hinv.fits, hinv.count⟩, ⟨rfl, rfl, rfl, Or.inl rfl⟩, rfl, ?_, ?_⟩
        · simp [foreachLists, hof, hb, foldl_callFreeItemCb, hstop, releasedItems]
        · rw [if_pos hstop]
        · rw [if_pos hstop, stored, hiter', hiter, List.flatMap_append, List.flatMap_cons,
            hdone, hself, has]
      · obtain ⟨t₂, hrun, hinv₂, hsucc, hbrk, hrel, hstored⟩ := ih (done ++ [a]) { t with
            toBuckets := b
            count := t.count - (foreachItems cb visits l.head).removed.length
            released := t.released ++
              t.releasedItems (foreachItems cb visits l.head).removed }
          (foreachItems cb visits l.head).visits ⟨hinv.buckets, hinv.fits, hinv.count⟩
          (by simp [hiter', hiter])
        simp only [has] at hrun hrel hstored
        refine ⟨t₂, ?_, hinv₂,
          ⟨hsucc.seed, hsucc.maxSize, hsucc.freeItemCb, hsucc.size⟩, hbrk, ?_, ?_⟩
        · simp [foreachLists, hof, hb, foldl_callFreeItemCb, hstop, releasedItems]
          simpa [releasedItems] using hrun
        · rw [if_neg hstop, hrel]
          by_cases hcb : t.freeItemCb
          · simp [releasedItems, hcb]
          · simp [releasedItems, hcb]
        · rw [if_neg hstop, hstored, List.flatMap_append, List.flatMap_singleton, hdone,
            hself, List.append_assoc]

/-- `ht_foreach_pair` is one sweep over the stored items. -/
theorem htForeachPair_eq (h : TableInv t) (cb : PairIterator) :
    ∃ t', t.htForeachPair cb =
        some (t', (foreachItems cb [] (stored t.toBuckets)).visits) ∧
      TableInv t' ∧ Successor t t' ∧ t'.brk = t.brk ∧
      t'.released = t.released ++
        t.releasedItems (foreachItems cb [] (stored t.toBuckets)).removed ∧
      stored t'.toBuckets = (foreachItems cb [] (stored t.toBuckets)).kept :=
  foreachLists_eq cb t.iteratorList [] t [] h rfl

theorem registeredItems_eq (h : TableInv t) :
    t.registeredItems = some (stored t.toBuckets) := by
  have hloop : ∀ as : List Addr, (∀ a ∈ as, a ∈ t.iteratorList) →
      as.mapM (itemsOf t.toBuckets) = some (as.map (bucketItems t.toBuckets)) := by
    intro as
    induction as with
    | nil =>
        intro _
        rfl
    | cons a as ih =>
        intro hmem
        obtain ⟨l, hl, -, -⟩ := h.buckets.bucket_of_mem (hmem a (by simp))
        have hrest := ih fun c hc => hmem c (by simp [hc])
        simp [List.mapM_cons, itemsOf, hl, hrest, bucketItems]
  simp [registeredItems, hloop t.iteratorList (fun a ha => ha), stored, List.flatMap]

end HashTable
end LibHL
