import LibHL.HashTable.Growth

/-!
# What the operations do to the stored items

Two internal functions do the work of almost all public ones:
`ht_set_internal` appends an item or overwrites the value of one, and
`ht_call_internal` hands one item to a callback that may overwrite or remove
it.  Both are described here up to the order of the stored items; neither
description mentions buckets.
-/

namespace LibHL
namespace HashTable

variable {t : HashTable} {key : Key}

/-! ## Looking up a key -/

/-- No item has the key. -/
def Absent (key : Key) (its : List HtItem) : Prop :=
  ∀ it ∈ its, it.key ≠ key

instance (key : Key) (its : List HtItem) : Decidable (Absent key its) :=
  inferInstanceAs (Decidable (∀ it ∈ its, it.key ≠ key))

@[simp] theorem htKeyEquals_iff {k₁ k₂ : Key} :
    htKeyEquals k₁ k₂ = true ↔ k₁ = k₂ := by
  constructor
  · intro h
    simp only [htKeyEquals, Bool.and_eq_true, decide_eq_true_eq] at h
    exact h.2
  · rintro rfl
    simp [htKeyEquals]

/-- The first item with a key, if any, splits its bucket. -/
theorem findItem_cases (key : Key) (its : List HtItem) :
    (its.find? (fun it => htKeyEquals it.key key) = none ∧ Absent key its) ∨
    ∃ pre it post, its = pre ++ it :: post ∧ Absent key pre ∧ it.key = key ∧
      its.find? (fun it => htKeyEquals it.key key) = some it := by
  induction its with
  | nil =>
      left
      exact ⟨rfl, by simp [Absent]⟩
  | cons x its ih =>
      by_cases hx : x.key = key
      · right
        exact ⟨[], x, its, rfl, by simp [Absent], hx, by simp [hx]⟩
      · rcases ih with ⟨hnone, habs⟩ | ⟨pre, it, post, rfl, habs, hkey, hfind⟩
        · left
          refine ⟨by simpa [hx] using hnone, ?_⟩
          rintro y (_ | ⟨_, hy⟩)
          · exact hx
          · exact habs y hy
        · right
          refine ⟨x :: pre, it, post, rfl, ?_, hkey, by simpa [hx] using hfind⟩
          rintro y (_ | ⟨_, hy⟩)
          · exact hx
          · exact habs y hy

theorem updateItem_append {pre post : List HtItem} {it : HtItem}
    (habs : Absent key pre) (hkey : it.key = key) (f : HtItem → HtItem) :
    updateItem key f (pre ++ it :: post) = pre ++ f it :: post := by
  induction pre with
  | nil => simp [updateItem, hkey]
  | cons x pre ih =>
      have hx : x.key ≠ key := habs x (by simp)
      have hrest := ih fun y hy => habs y (by simp [hy])
      simp [updateItem, hx, hrest]

theorem removeItem_append {pre post : List HtItem} {it : HtItem}
    (habs : Absent key pre) (hkey : it.key = key) :
    removeItem key (pre ++ it :: post) = pre ++ post := by
  induction pre with
  | nil => simp [removeItem, hkey]
  | cons x pre ih =>
      have hx : x.key ≠ key := habs x (by simp)
      have hrest := ih fun y hy => habs y (by simp [hy])
      simp [removeItem, hx, hrest]

namespace TableInv

/-- The slot of a key is empty, or holds a bucket. -/
theorem htGetList_cases (h : TableInv t) (hash : UInt32) :
    t.htGetList hash = some none ∨
      ∃ a l, t.htGetList hash = some (some a) ∧ t.lists a = some l := by
  have hlt := h.buckets.slot_lt hash.toNat
  cases hslot : t.htGetList hash with
  | none =>
      rw [htGetList, List.getElem?_eq_none_iff] at hslot
      omega
  | some p =>
      cases p with
      | none => exact Or.inl rfl
      | some a =>
          obtain ⟨l, hl, -⟩ := h.buckets.bucket _ a hslot
          exact Or.inr ⟨a, l, rfl, hl⟩

/-- A key whose slot is empty is not stored. -/
theorem absent_of_slot (h : TableInv t)
    (hslot : t.htGetList (htHashOneAtATime t.seed key) = some none) :
    Absent key (stored t.toBuckets) := by
  intro it hit hkey
  obtain ⟨a, l, ha, -, -, hp⟩ := h.buckets.stored_placed hit
  rw [hp.hash_eq, hkey] at ha
  rw [htGetList, ha] at hslot
  cases hslot

/-- A key that its bucket does not hold is not stored. -/
theorem absent_of_bucket (h : TableInv t) {a : Addr} {l : ItemsList}
    (hslot : t.htGetList (htHashOneAtATime t.seed key) = some (some a))
    (hl : t.lists a = some l) (habs : Absent key l.head) :
    Absent key (stored t.toBuckets) := by
  intro it hit hkey
  obtain ⟨a', l', ha, hl', hmem, hp⟩ := h.buckets.stored_placed hit
  rw [hp.hash_eq, hkey] at ha
  rw [htGetList, ha] at hslot
  cases hslot
  rw [hl] at hl'
  cases hl'
  exact habs it hmem hkey

/-- A bucket does not hold a key that is not stored. -/
theorem find_of_absent (h : TableInv t) {a : Addr} {l : ItemsList}
    (habs : Absent key (stored t.toBuckets))
    (hslot : t.htGetList (htHashOneAtATime t.seed key) = some (some a))
    (hl : t.lists a = some l) :
    l.head.find? (fun it => htKeyEquals it.key key) = none := by
  rcases findItem_cases key l.head with ⟨hnone, -⟩ | ⟨pre, it, post, hhead, -, hkey, -⟩
  · exact hnone
  · have ha : a ∈ t.iteratorList := h.buckets.mem_iteratorList_iff.mpr ⟨_, hslot⟩
    have hmem : it ∈ stored t.toBuckets := by
      refine List.mem_flatMap.mpr ⟨a, ha, ?_⟩
      rw [bucketItems_of_eq_some hl, hhead]
      simp
    exact absurd hkey (habs it hmem)

/-- The bucket of a stored key holds it. -/
theorem find_of_present (h : TableInv t)
    (hpres : ¬ Absent key (stored t.toBuckets)) :
    ∃ a l it, t.htGetList (htHashOneAtATime t.seed key) = some (some a) ∧
      t.lists a = some l ∧
      l.head.find? (fun it => htKeyEquals it.key key) = some it := by
  rcases h.htGetList_cases (htHashOneAtATime t.seed key) with hslot | ⟨a, l, hslot, hl⟩
  · exact absurd (h.absent_of_slot hslot) hpres
  rcases findItem_cases key l.head with ⟨-, habs⟩ | ⟨-, it, -, -, -, -, hfind⟩
  · exact absurd (h.absent_of_bucket hslot hl habs) hpres
  · exact ⟨a, l, it, hslot, hl, hfind⟩

/-- Overwriting the value of the item found, or removing it, changes nothing
else. -/
theorem bucket_of_found (h : TableInv t) {a : Addr} {l : ItemsList} {it : HtItem}
    (hslot : t.htGetList (htHashOneAtATime t.seed key) = some (some a))
    (hl : t.lists a = some l)
    (hfind : l.head.find? (fun it => htKeyEquals it.key key) = some it) :
    ∃ rest, it.key = key ∧ (stored t.toBuckets).Perm (it :: rest) ∧
      (∃ b, setItems t.toBuckets a (removeItem key l.head) = some b ∧
        BucketsInv t.seed t.size b ∧ (stored b).Perm rest) ∧
      ∀ d n, ∃ b,
        setItems t.toBuckets a
          (updateItem key (fun it => { it with data := d, dlen := n }) l.head) =
            some b ∧
        BucketsInv t.seed t.size b ∧
        (stored b).Perm ({ it with data := d, dlen := n } :: rest) := by
  rcases findItem_cases key l.head with
    ⟨hnone, -⟩ | ⟨pre, it', post, hhead, habs, hkey, hfind'⟩
  · rw [hnone] at hfind
    cases hfind
  rw [hfind] at hfind'
  cases hfind'
  obtain ⟨l', hl', -, hplaced⟩ := h.buckets.bucket _ a hslot
  rw [hl] at hl'
  cases hl'
  rw [hhead] at hplaced
  -- The items of the other buckets, the same for every new content of this one.
  have hempty : ∀ x ∈ ([] : List HtItem),
      Placed t.seed t.size ((htHashOneAtATime t.seed key).toNat % t.size) x := by simp
  obtain ⟨-, others, -, -, -, -, -, -, hstored, -⟩ :=
    h.buckets.setItems_eq hslot hl hempty
  have hset : ∀ its : List HtItem,
      (∀ x ∈ its, Placed t.seed t.size
        ((htHashOneAtATime t.seed key).toNat % t.size) x) →
      ∃ b, setItems t.toBuckets a its = some b ∧ BucketsInv t.seed t.size b ∧
        (stored b).Perm (its ++ others) := by
    intro its hits
    obtain ⟨b, rest, hb, hinv, -, -, -, -, hperm, hperm'⟩ :=
      h.buckets.setItems_eq hslot hl hits
    have hrest : others.Perm rest :=
      (List.perm_append_left_iff l.head).mp (hstored.symm.trans hperm)
    exact ⟨b, hb, hinv, hperm'.trans (hrest.symm.append_left its)⟩
  refine ⟨pre ++ post ++ others, hkey, ?_, ?_, ?_⟩
  · refine hstored.trans ?_
    rw [hhead, List.append_assoc, List.append_assoc]
    exact List.perm_middle
  · rw [hhead, removeItem_append habs hkey]
    refine hset _ ?_
    intro x hx
    rw [List.mem_append] at hx
    exact hplaced x (by simp only [List.mem_append, List.mem_cons]; tauto)
  · intro d n
    rw [hhead, updateItem_append habs hkey]
    obtain ⟨b, hb, hinv, hperm⟩ := hset
      (pre ++ { it with data := d, dlen := n } :: post) (by
        intro x hx
        rw [List.mem_append, List.mem_cons] at hx
        rcases hx with hx | rfl | hx
        · exact hplaced x (by simp [hx])
        · obtain ⟨h₁, h₂, h₃⟩ := hplaced it (by simp)
          exact ⟨h₁, h₂, h₃⟩
        · exact hplaced x (by simp [hx]))
    refine ⟨b, hb, hinv, hperm.trans ?_⟩
    rw [List.append_assoc, List.append_assoc]
    exact List.perm_middle

end TableInv

/-- What a call on items leaves alone: the seed, the cap and the free callback;
the size changes only within the cap. -/
structure Successor (t t' : HashTable) : Prop where
  seed : t'.seed = t.seed
  maxSize : t'.maxSize = t.maxSize
  freeItemCb : t'.freeItemCb = t.freeItemCb
  size : t'.size = t.size ∨ t.maxSize = 0 ∨ t'.size ≤ t.maxSize

theorem Successor.refl (t : HashTable) : Successor t t :=
  ⟨rfl, rfl, rfl, Or.inl rfl⟩

theorem Successor.trans {t₁ t₂ t₃ : HashTable} (h : Successor t₁ t₂)
    (h' : Successor t₂ t₃) : Successor t₁ t₃ := by
  refine ⟨h'.seed.trans h.seed, h'.maxSize.trans h.maxSize,
    h'.freeItemCb.trans h.freeItemCb, ?_⟩
  rcases h'.size with heq | hsize
  · rw [heq]
    exact h.size
  · rw [h.maxSize] at hsize
    exact Or.inr hsize

/-! ## `ht_call_internal` -/

theorem htCallInternal_absent {ρ : Type} (h : TableInv t)
    (habs : Absent key (stored t.toBuckets)) (cb : PairCallback ρ) :
    t.htCallInternal key cb = some (t, -1, none) := by
  rcases h.htGetList_cases (htHashOneAtATime t.seed key) with hslot | ⟨a, l, hslot, hl⟩
  · simp [htCallInternal, hslot]
  · have hnone := h.find_of_absent habs hslot hl
    simp [htCallInternal, hslot, hl, hnone]

/-- The item that `ht_call_internal` calls back on. -/
def foundItem (t : HashTable) (key : Key) : Option HtItem := do
  let list ← (t.htGetList (htHashOneAtATime t.seed key)).join
  let l ← t.lists list
  l.head.find? fun it => htKeyEquals it.key key

theorem foundItem_absent (h : TableInv t) (habs : Absent key (stored t.toBuckets)) :
    t.foundItem key = none := by
  rcases h.htGetList_cases (htHashOneAtATime t.seed key) with hslot | ⟨a, l, hslot, hl⟩
  · simp [foundItem, hslot]
  · simp [foundItem, hslot, hl, h.find_of_absent habs hslot hl]

theorem foundItem_present (h : TableInv t) (hpres : ¬ Absent key (stored t.toBuckets)) :
    ∃ it, t.foundItem key = some it := by
  obtain ⟨a, l, it, hslot, hl, hfind⟩ := h.find_of_present hpres
  exact ⟨it, by simp [foundItem, hslot, hl, hfind]⟩

/-- A call of the callback on an item, the others being `rest`. -/
abbrev CalledOn {ρ : Type} (t : HashTable) (key : Key) (cb : PairCallback ρ) (it : HtItem)
    (rest : List HtItem) : Prop :=
  it.key = key ∧ (stored t.toBuckets).Perm (it :: rest) ∧
    (cb t it.data it.dlen = none → t.htCallInternal key cb = none) ∧
    ∀ r, cb t it.data it.dlen = some r →
      ∃ t', t.htCallInternal key cb =
          some (t', if r.ret = 1 then 0 else r.ret, some r.out) ∧
        TableInv t' ∧ Successor t t' ∧
        t'.released = r.released ∧ t'.brk = r.brk ∧
        (stored t'.toBuckets).Perm
          (if r.ret = 1 then rest
            else { it with data := r.data, dlen := r.dlen } :: rest)

/-- The callback sees the item found; its return code decides whether the item goes
or takes the value and length left by the callback. -/
theorem htCallInternal_found {ρ : Type} (h : TableInv t) {it : HtItem}
    (hfound : t.foundItem key = some it) (cb : PairCallback ρ) :
    ∃ rest, CalledOn t key cb it rest := by
  obtain ⟨a, hjoin, hrest⟩ := Option.bind_eq_some_iff.mp hfound
  obtain ⟨l, hl, hfind⟩ := Option.bind_eq_some_iff.mp hrest
  have hslot : t.htGetList (htHashOneAtATime t.seed key) = some (some a) :=
    Option.join_eq_some_iff.mp hjoin
  obtain ⟨rest, hkey, hperm, ⟨b, hb, hinv, hrest⟩, hupd⟩ :=
    h.bucket_of_found hslot hl hfind
  have hcount : t.count = rest.length + 1 := h.count.trans hperm.length_eq
  refine ⟨rest, hkey, hperm, ?_, ?_⟩
  · intro hcb
    simp [htCallInternal, hslot, hl, hfind, hcb]
  · intro r hcb
    by_cases hret : r.ret = 1
    · refine ⟨{ t with
        toBuckets := b
        count := t.count - 1
        released := r.released
        brk := r.brk }, ?_, ⟨hinv, h.fits, ?_⟩, ⟨rfl, rfl, rfl, Or.inl rfl⟩, rfl, rfl, ?_⟩
      · simp [htCallInternal, hslot, hl, hfind, hcb, hret, hb]
      · have hlen := hrest.length_eq
        simp only [hlen, hcount, Nat.add_sub_cancel]
      · rwa [if_pos hret]
    · obtain ⟨b', hb', hinv', hrest'⟩ := hupd r.data r.dlen
      refine ⟨{ t with
        toBuckets := b'
        released := r.released
        brk := r.brk }, ?_, ⟨hinv', h.fits, ?_⟩, ⟨rfl, rfl, rfl, Or.inl rfl⟩, rfl, rfl, ?_⟩
      · simp [htCallInternal, hslot, hl, hfind, hcb, hret, hb']
      · simp only [hrest'.length_eq, hcount, List.length_cons]
      · rwa [if_neg hret]

/-- The callback sees an item with the key. -/
theorem htCallInternal_present {ρ : Type} (h : TableInv t)
    (hpres : ¬ Absent key (stored t.toBuckets)) (cb : PairCallback ρ) :
    ∃ it rest, CalledOn t key cb it rest := by
  obtain ⟨it, hfound⟩ := foundItem_present h hpres
  exact ⟨it, htCallInternal_found h hfound cb⟩

/-! ## `ht_set_internal` -/

/-- What the free callback is called with when a value is let go. -/
def releases (t : HashTable) (prevData : Bool) (prev : Option Data) :
    List (Option Data) :=
  if t.freeItemCb ∧ prev.isSome ∧ ¬ prevData then [prev] else []

/-- Growth and the hand-out of the previous value keep the stored items. -/
theorem finishSet_eq (h : TableInv t) (prev : Option Data) (plen : ℕ)
    (prevData prevLen : Bool) :
    ∃ t', t.finishSet prev plen prevData prevLen = some (t', {
        ret := 0
        prevData := writeOut prevData prev
        prevLen := writeOut prevLen plen }) ∧
      TableInv t' ∧ Successor t t' ∧ t'.brk = t.brk ∧
      t'.released = t.released ++ t.releases prevData prev ∧
      (stored t'.toBuckets).Perm (stored t.toBuckets) := by
  have hgrow : ∃ b n, t.growIfNeeded = some { t with toBuckets := b, size := n } ∧
      TableInv { t with toBuckets := b, size := n } ∧
      (stored b).Perm (stored t.toBuckets) ∧
      (n = t.size ∨ t.maxSize = 0 ∨ n ≤ t.maxSize) := by
    by_cases hg : t.needsGrowth
    · rw [growIfNeeded, if_pos hg]
      exact htGrowTable_eq h
    · rw [growIfNeeded, if_neg hg]
      exact ⟨t.toBuckets, t.size, rfl, h, List.Perm.refl _, Or.inl rfl⟩
  obtain ⟨b, n, hrun, hinv, hperm, hsize⟩ := hgrow
  by_cases hfree : prev.isSome ∧ ¬ prevData
  · by_cases hcb : t.freeItemCb
    · refine ⟨{ t with
        toBuckets := b
        size := n
        released := t.released ++ [prev] }, ?_, ⟨hinv.buckets, hinv.fits, hinv.count⟩,
        ⟨rfl, rfl, rfl, hsize⟩, rfl, ?_, hperm⟩
      · simp only [finishSet, hrun, Option.bind_eq_bind, Option.bind_some, if_pos hfree,
          callFreeItemCb, if_pos hcb]
      · simp [releases, hcb, hfree]
    · refine ⟨{ t with toBuckets := b, size := n }, ?_, hinv,
        ⟨rfl, rfl, rfl, hsize⟩, rfl, ?_, hperm⟩
      · simp only [finishSet, hrun, Option.bind_eq_bind, Option.bind_some, if_pos hfree,
          callFreeItemCb, if_neg hcb]
      · simp [releases, hcb]
  · refine ⟨{ t with toBuckets := b, size := n }, ?_, hinv,
      ⟨rfl, rfl, rfl, hsize⟩, rfl, ?_, hperm⟩
    · simp only [finishSet, hrun, Option.bind_eq_bind, Option.bind_some, if_neg hfree]
    · rw [releases, if_neg (fun hc => hfree hc.2), List.append_nil]

/-- The item `ht_set_internal` creates. -/
def freshItem (seed : UInt32) (key : Key) (data : Option Data) (dlen : ℕ) : HtItem :=
  { hash := htHashOneAtATime seed key, key := key, data := data, dlen := dlen }

/-- `ht_set_internal` works in the bucket of the key, which it creates if there
is none; creating it stores nothing. -/
theorem htSetInternal_bucket (h : TableInv t) (hkey : key ≠ []) :
    ∃ b a, TableInv { t with toBuckets := b } ∧ stored b = stored t.toBuckets ∧
      b.items[(htHashOneAtATime t.seed key).toNat % t.size]? = some (some a) ∧
      ∀ data dlen prevData prevLen copy inx,
        t.htSetInternal key data dlen prevData prevLen copy inx =
          setInList { t with toBuckets := b } a (htHashOneAtATime t.seed key)
            key data dlen prevData prevLen copy inx := by
  have hlen : key.length ≠ 0 := fun hlen => hkey (List.length_eq_zero_iff.mp hlen)
  rcases h.htGetList_cases (htHashOneAtATime t.seed key) with hslot | ⟨a, l, hslot, hl⟩
  · obtain ⟨hinv, hslot', -, -, hstored⟩ := h.buckets.newList_eq hslot
    refine ⟨(newList t.toBuckets _).1, (newList t.toBuckets _).2,
      ⟨hinv, h.fits, ?_⟩, hstored, hslot', ?_⟩
    · rw [hstored]
      exact h.count
    · intro data dlen prevData prevLen copy inx
      have hitem : t.items[(htHashOneAtATime t.seed key).toNat % t.size]? =
          some none := hslot
      simp [htSetInternal, hlen, hslot, htSetList, hitem]
  · refine ⟨t.toBuckets, a, h, rfl, hslot, ?_⟩
    intro data dlen prevData prevLen copy inx
    simp [htSetInternal, hlen, hslot]

/-- Without a value under the key, a new item is appended. -/
theorem setInList_append (h : TableInv t) {a : Addr} {l : ItemsList}
    (hkey : key ≠ [])
    (hslot : t.items[(htHashOneAtATime t.seed key).toNat % t.size]? = some (some a))
    (hl : t.lists a = some l)
    (hfound : (l.head.find? fun it => htKeyEquals it.key key).bind HtItem.data = none)
    {data : Option Data} {dlen : ℕ} {copy : Bool} {n : ℕ} {st : Option Data}
    (hnew : newItemData t.brk data dlen copy = some (n, st))
    (prevData prevLen inx : Bool) :
    ∃ t', t.setInList a (htHashOneAtATime t.seed key) key data dlen
        prevData prevLen copy inx = some (t', {
          ret := 0
          prevData := writeOut prevData none
          prevLen := writeOut prevLen
            (((l.head.find? fun it => htKeyEquals it.key key).map HtItem.dlen).getD 0) }) ∧
      TableInv t' ∧ Successor t t' ∧ t'.brk = n ∧ t'.released = t.released ∧
      (stored t'.toBuckets).Perm (freshItem t.seed key st dlen :: stored t.toBuckets) := by
  have hplaced : Placed t.seed t.size ((htHashOneAtATime t.seed key).toNat % t.size)
      (freshItem t.seed key st dlen) := ⟨hkey, rfl, rfl⟩
  obtain ⟨b, hb, hinv, hperm, -⟩ := h.buckets.insertTail_eq hslot hplaced
  have hcount : TableInv { t with toBuckets := b, count := t.count + 1, brk := n } := by
    refine ⟨hinv, h.fits, ?_⟩
    simp only [hperm.length_eq, List.length_cons, h.count]
  obtain ⟨t', hrun, hinv', hsucc, hbrk, hrel, hperm'⟩ := finishSet_eq hcount none
    (((l.head.find? fun it => htKeyEquals it.key key).map HtItem.dlen).getD 0)
    prevData prevLen
  refine ⟨t', ?_, hinv', ⟨hsucc.seed, hsucc.maxSize, hsucc.freeItemCb, hsucc.size⟩,
    hbrk, ?_, hperm'.trans hperm⟩
  · rw [freshItem] at hb
    simp [setInList, hl, hfound, hnew, hb, hrun]
  · simpa [releases] using hrel

/-- Over a value, the setter refuses or replaces it. -/
theorem setInList_update (h : TableInv t) {a : Addr} {l : ItemsList} {it : HtItem}
    {prev : Data}
    (hslot : t.htGetList (htHashOneAtATime t.seed key) = some (some a))
    (hl : t.lists a = some l)
    (hfind : l.head.find? (fun it => htKeyEquals it.key key) = some it)
    (hprev : it.data = some prev) (hash : UInt32) (data : Option Data) (dlen : ℕ)
    (prevData prevLen copy : Bool) :
    ∃ rest, it.key = key ∧ (stored t.toBuckets).Perm (it :: rest) ∧
      t.setInList a hash key data dlen prevData prevLen copy true = some (t, {
        ret := 1
        prevData := writeOut prevData it.data
        prevLen := writeOut prevLen it.dlen }) ∧
      ∀ n st, updatedItemData t.brk data dlen copy = some (n, st) →
        ∃ t', t.setInList a hash key data dlen prevData prevLen copy false =
            some (t', {
              ret := 0
              prevData := writeOut prevData it.data
              prevLen := writeOut prevLen it.dlen }) ∧
          TableInv t' ∧ Successor t t' ∧ t'.brk = n ∧
          t'.released = t.released ++ t.releases prevData it.data ∧
          (stored t'.toBuckets).Perm ({ it with data := st, dlen := dlen } :: rest) := by
  obtain ⟨rest, hkey, hperm, -, hupd⟩ := h.bucket_of_found hslot hl hfind
  refine ⟨rest, hkey, hperm, ?_, ?_⟩
  · simp [setInList, hl, hfind, hprev]
  · intro n st hst
    obtain ⟨b, hb, hinv, hperm'⟩ := hupd st dlen
    have hinv' : TableInv { t with toBuckets := b, brk := n } := by
      refine ⟨hinv, h.fits, ?_⟩
      simp only [h.count, hperm.length_eq, hperm'.length_eq, List.length_cons]
    obtain ⟨t', hrun, hinv'', hsucc, hbrk, hrel, hperm''⟩ :=
      finishSet_eq hinv' (some prev) it.dlen prevData prevLen
    refine ⟨t', ?_, hinv'', ⟨hsucc.seed, hsucc.maxSize, hsucc.freeItemCb, hsucc.size⟩,
      hbrk, ?_, hperm''.trans hperm'⟩
    · simp [setInList, hl, hfind, hprev, hst, hb, hrun]
    · rw [hprev]
      exact hrel

/-- A key that is not stored gets a new item. -/
theorem htSetInternal_absent (h : TableInv t) (hkey : key ≠ [])
    (habs : Absent key (stored t.toBuckets)) {data : Option Data} {dlen : ℕ}
    {copy : Bool} {n : ℕ} {st : Option Data}
    (hnew : newItemData t.brk data dlen copy = some (n, st))
    (prevData prevLen inx : Bool) :
    ∃ t', t.htSetInternal key data dlen prevData prevLen copy inx = some (t', {
          ret := 0
          prevData := writeOut prevData none
          prevLen := writeOut prevLen 0 }) ∧
      TableInv t' ∧ Successor t t' ∧ t'.brk = n ∧ t'.released = t.released ∧
      (stored t'.toBuckets).Perm (freshItem t.seed key st dlen :: stored t.toBuckets) := by
  obtain ⟨b, a, hinv, hstored, hslot, heq⟩ := htSetInternal_bucket h hkey
  obtain ⟨l, hl, -, -⟩ := hinv.buckets.bucket _ a hslot
  have hnone : l.head.find? (fun it => htKeyEquals it.key key) = none :=
    hinv.find_of_absent (by rwa [hstored]) hslot hl
  obtain ⟨t', hrun, hinv', hsucc, hbrk, hrel, hperm⟩ := setInList_append hinv hkey
    hslot hl (by simp [hnone]) hnew prevData prevLen inx
  refine ⟨t', ?_, hinv', ⟨hsucc.seed, hsucc.maxSize, hsucc.freeItemCb, hsucc.size⟩,
    hbrk, hrel, ?_⟩
  · rw [heq, hrun, hnone]
    rfl
  · rwa [hstored] at hperm

/-- A stored key: the setter appends a second item if the one found has no
value, and refuses or replaces the value otherwise. -/
theorem htSetInternal_present (h : TableInv t) (hkey : key ≠ [])
    (hpres : ¬ Absent key (stored t.toBuckets)) (data : Option Data) (dlen : ℕ)
    (prevData prevLen copy : Bool) :
    ∃ it rest, it.key = key ∧ (stored t.toBuckets).Perm (it :: rest) ∧
      (it.data ≠ none →
        t.htSetInternal key data dlen prevData prevLen copy true = some (t, {
          ret := 1
          prevData := writeOut prevData it.data
          prevLen := writeOut prevLen it.dlen }) ∧
        ∀ n st, updatedItemData t.brk data dlen copy = some (n, st) →
          ∃ t', t.htSetInternal key data dlen prevData prevLen copy false =
              some (t', {
                ret := 0
                prevData := writeOut prevData it.data
                prevLen := writeOut prevLen it.dlen }) ∧
            TableInv t' ∧ Successor t t' ∧ t'.brk = n ∧
            t'.released = t.released ++ t.releases prevData it.data ∧
            (stored t'.toBuckets).Perm ({ it with data := st, dlen := dlen } :: rest)) := by
  have hlen : key.length ≠ 0 := fun hlen => hkey (List.length_eq_zero_iff.mp hlen)
  obtain ⟨a, l, it, hslot, hl, hfind⟩ := h.find_of_present hpres
  have heq : ∀ inx, t.htSetInternal key data dlen prevData prevLen copy inx =
      t.setInList a (htHashOneAtATime t.seed key) key data dlen prevData prevLen copy
        inx := by
    intro inx
    simp [htSetInternal, hlen, hslot]
  cases hprev : it.data with
  | none =>
      obtain ⟨rest, hk, hperm, -⟩ := h.bucket_of_found hslot hl hfind
      exact ⟨it, rest, hk, hperm, fun hne => absurd hprev hne⟩
  | some prev =>
      obtain ⟨rest, hk, hperm, hrefuse, hreplace⟩ := setInList_update h hslot hl hfind
        hprev (htHashOneAtATime t.seed key) data dlen prevData prevLen copy
      refine ⟨it, rest, hk, hperm, ?_⟩
      intro _
      rw [heq, heq]
      exact ⟨hrefuse, hreplace⟩

/-- What `ht_set_internal` can do, with its answer: nothing, append an item because
the bucket holds no value under the key, or overwrite a value. -/
theorem htSetInternal_outcomes (h : TableInv t) {data : Option Data} {dlen : ℕ}
    {prevData prevLen copy inx : Bool} {t' : HashTable} {r : SetResult}
    (hrun : t.htSetInternal key data dlen prevData prevLen copy inx = some (t', r)) :
    TableInv t' ∧ Successor t t' ∧
      ((stored t'.toBuckets = stored t.toBuckets ∧ t'.brk = t.brk ∧
        t'.released = t.released ∧ r.ret ≠ 0) ∨
      (∃ st, newItemData t.brk data dlen copy = some (t'.brk, st) ∧
        t'.released = t.released ∧ r.ret = 0 ∧ r.prevData = writeOut prevData none ∧
        (stored t'.toBuckets).Perm (freshItem t.seed key st dlen :: stored t.toBuckets) ∧
        ∀ it ∈ stored t.toBuckets, it.key = key →
          ∃ it' ∈ stored t.toBuckets, it'.key = key ∧ it'.data = none) ∨
      ∃ it rest st, it.key = key ∧ inx = false ∧
        updatedItemData t.brk data dlen copy = some (t'.brk, st) ∧
        t'.released = t.released ++ t.releases prevData it.data ∧ r.ret = 0 ∧
        r.prevData = writeOut prevData it.data ∧ (stored t.toBuckets).Perm (it :: rest) ∧
        (stored t'.toBuckets).Perm ({ it with data := st, dlen := dlen } :: rest)) := by
  by_cases hkey : key = []
  · simp only [htSetInternal, hkey, List.length_nil, if_true, Option.some.injEq,
      Prod.mk.injEq] at hrun
    rw [← hrun.1, ← hrun.2]
    exact ⟨h, Successor.refl t, Or.inl ⟨rfl, rfl, rfl, by simp⟩⟩
  obtain ⟨b, a, hinv, hstored, hslot, heq⟩ := htSetInternal_bucket h hkey
  obtain ⟨l, hl, -, -⟩ := hinv.buckets.bucket _ a hslot
  have hl' : b.lists a = some l := hl
  rw [heq] at hrun
  cases hfound : (l.head.find? fun it => htKeyEquals it.key key).bind HtItem.data with
  | none =>
      cases hnew : newItemData t.brk data dlen copy with
      | none => simp [setInList, hl', hfound, hnew] at hrun
      | some p =>
          obtain ⟨t₁, hrun₁, hinv₁, hsucc, hbrk, hrel, hperm⟩ := setInList_append hinv hkey
            hslot hl hfound hnew prevData prevLen inx
          rw [hrun₁] at hrun
          cases hrun
          refine ⟨hinv₁, ⟨hsucc.seed, hsucc.maxSize, hsucc.freeItemCb, hsucc.size⟩,
            Or.inr (Or.inl ⟨p.2, by rw [hbrk], hrel, rfl, rfl, ?_, ?_⟩)⟩
          · rwa [hstored] at hperm
          · intro it hit hk
            have hpres : ¬ Absent key (stored b) := by
              rw [hstored]
              exact fun habs => habs it hit hk
            obtain ⟨a', l₁, it', hslot', hl₁, hfind⟩ := hinv.find_of_present hpres
            cases hslot.symm.trans hslot'
            cases hl.symm.trans hl₁
            obtain ⟨rest, hk', hperm', -⟩ := hinv.bucket_of_found hslot hl hfind
            rw [hfind] at hfound
            refine ⟨it', ?_, hk', hfound⟩
            rw [← hstored]
            exact hperm'.mem_iff.mpr (by simp)
  | some prev =>
      obtain ⟨it, hfind, hprev⟩ := Option.bind_eq_some_iff.mp hfound
      obtain ⟨rest, hk, hperm, hrefuse, hreplace⟩ := setInList_update hinv hslot hl hfind
        hprev (htHashOneAtATime t.seed key) data dlen prevData prevLen copy
      cases inx with
      | true =>
          rw [hrefuse] at hrun
          cases hrun
          exact ⟨hinv, ⟨rfl, rfl, rfl, Or.inl rfl⟩, Or.inl ⟨hstored, rfl, rfl, Int.one_ne_zero⟩⟩
      | false =>
          cases hst : updatedItemData t.brk data dlen copy with
          | none => simp [setInList, hl', hfind, hprev, hst] at hrun
          | some p =>
              obtain ⟨t₁, hrun₁, hinv₁, hsucc, hbrk, hrel, hperm'⟩ := hreplace p.1 p.2 hst
              rw [hrun₁] at hrun
              cases hrun
              refine ⟨hinv₁, ⟨hsucc.seed, hsucc.maxSize, hsucc.freeItemCb, hsucc.size⟩,
                Or.inr (Or.inr ⟨it, rest, p.2, hk, rfl, by rw [hbrk], hrel, rfl, rfl, ?_, hperm'⟩)⟩
              rwa [← hstored]

/-- What `ht_set_internal` can do to the stored items. -/
theorem htSetInternal_cases (h : TableInv t) {data : Option Data} {dlen : ℕ}
    {prevData prevLen copy inx : Bool} {t' : HashTable} {r : SetResult}
    (hrun : t.htSetInternal key data dlen prevData prevLen copy inx = some (t', r)) :
    TableInv t' ∧ Successor t t' ∧
      (stored t'.toBuckets = stored t.toBuckets ∨
      (∃ st, (stored t'.toBuckets).Perm
          (freshItem t.seed key st dlen :: stored t.toBuckets) ∧
        ∀ it ∈ stored t.toBuckets, it.key = key →
          ∃ it' ∈ stored t.toBuckets, it'.key = key ∧ it'.data = none) ∨
      ∃ it rest st, it.key = key ∧ (stored t.toBuckets).Perm (it :: rest) ∧
        (stored t'.toBuckets).Perm ({ it with data := st, dlen := dlen } :: rest)) := by
  obtain ⟨hinv, hsucc, hsame | ⟨st, -, -, -, -, hperm, hnull⟩ |
    ⟨it, rest, st, hk, -, -, -, -, -, hperm, hperm'⟩⟩ := htSetInternal_outcomes h hrun
  · exact ⟨hinv, hsucc, Or.inl hsame.1⟩
  · exact ⟨hinv, hsucc, Or.inr (Or.inl ⟨st, hperm, hnull⟩)⟩
  · exact ⟨hinv, hsucc, Or.inr (Or.inr ⟨it, rest, st, hk, hperm, hperm'⟩)⟩

/-- What `ht_call_internal` can do: nothing, remove an item, or overwrite its
value. -/
theorem htCallInternal_cases {ρ : Type} (h : TableInv t) {cb : PairCallback ρ}
    {t' : HashTable} {ret : ℤ} {out : Option ρ}
    (hrun : t.htCallInternal key cb = some (t', ret, out)) :
    TableInv t' ∧ Successor t t' ∧
      (stored t'.toBuckets = stored t.toBuckets ∨
      ∃ it rest, (stored t.toBuckets).Perm (it :: rest) ∧
        ((stored t'.toBuckets).Perm rest ∨
        ∃ d n, (stored t'.toBuckets).Perm ({ it with data := d, dlen := n } :: rest))) := by
  by_cases habs : Absent key (stored t.toBuckets)
  · rw [htCallInternal_absent h habs] at hrun
    cases hrun
    exact ⟨h, Successor.refl t, Or.inl rfl⟩
  · obtain ⟨it, rest, -, hperm, hnone, hsome⟩ := htCallInternal_present h habs cb
    cases hcb : cb t it.data it.dlen with
    | none =>
        rw [hnone hcb] at hrun
        cases hrun
    | some r =>
        obtain ⟨t₁, hrun₁, hinv, hsucc, -, -, hperm'⟩ := hsome r hcb
        rw [hrun₁] at hrun
        cases hrun
        refine ⟨hinv, hsucc, Or.inr ⟨it, rest, hperm, ?_⟩⟩
        by_cases hret : r.ret = 1
        · left
          rwa [if_pos hret] at hperm'
        · right
          rw [if_neg hret] at hperm'
          exact ⟨r.data, r.dlen, hperm'⟩

/-- Among items with distinct keys, the one split off is the only one with its
key. -/
theorem perm_cons_unique {its rest rest' : List HtItem} {it it' : HtItem}
    (hperm : its.Perm (it :: rest)) (hperm' : its.Perm (it' :: rest'))
    (hkey' : it'.key = it.key) (habs : Absent it.key rest) :
    it' = it ∧ rest'.Perm rest := by
  have hmem : it' ∈ it :: rest := (hperm.symm.trans hperm').mem_iff.mpr (by simp)
  rcases List.mem_cons.mp hmem with rfl | hmem
  · exact ⟨rfl, ((List.perm_cons _).mp (hperm.symm.trans hperm')).symm⟩
  · exact absurd hkey' (habs it' hmem)

end HashTable
end LibHL
