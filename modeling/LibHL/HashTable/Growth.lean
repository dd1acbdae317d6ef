import LibHL.HashTable.Invariant

/-!
# Growing the table

`ht_grow_table` moves every item, bucket by bucket, into buckets created on
demand for a new array, and releases the old buckets as it goes.  The stored
items stay the same up to order, and the new array and iterator list are in
step.
-/

namespace LibHL
namespace HashTable

variable {seed : UInt32} {size : ℕ} {b : Buckets}

/-- The invariant of a table between calls. -/
structure TableInv (t : HashTable) : Prop where
  buckets : BucketsInv t.seed t.size t.toBuckets
  fits : callocFits t.size
  count : t.count = (stored t.toBuckets).length

/-- An item whose hash is the hash of its non-empty key. -/
def Hashed (seed : UInt32) (it : HtItem) : Prop :=
  it.key ≠ [] ∧ it.hash = htHashOneAtATime seed it.key

theorem Hashed.placed {it : HtItem} (h : Hashed seed it) (size : ℕ) :
    Placed seed size (it.hash.toNat % size) it :=
  ⟨h.1, h.2, rfl⟩

/-- Every bucket outside the ones registered in `b` is kept, and stays
outside. -/
def KeepsOthers (b b' : Buckets) : Prop :=
  ∀ c, c ∉ b.iteratorList → (b.lists c).isSome →
    c ∉ b'.iteratorList ∧ b'.lists c = b.lists c

theorem KeepsOthers.refl (b : Buckets) : KeepsOthers b b :=
  fun _ hc _ => ⟨hc, rfl⟩

theorem KeepsOthers.trans {b₁ b₂ b₃ : Buckets} (h : KeepsOthers b₁ b₂)
    (h' : KeepsOthers b₂ b₃) : KeepsOthers b₁ b₃ := by
  intro c hc hlive
  obtain ⟨hc₂, heq₂⟩ := h c hc hlive
  obtain ⟨hc₃, heq₃⟩ := h' c hc₂ (by rwa [heq₂])
  exact ⟨hc₃, heq₃.trans heq₂⟩

namespace BucketsInv

/-- Appending an item to the bucket of its slot stores it. -/
theorem insertTail_eq (h : BucketsInv seed size b) {i : ℕ} {a : Addr}
    (hi : b.items[i]? = some (some a)) {it : HtItem}
    (hit : Placed seed size i it) :
    ∃ b', insertTail b a it = some b' ∧ BucketsInv seed size b' ∧
      (stored b').Perm (it :: stored b) ∧ KeepsOthers b b' := by
  obtain ⟨l, hl, -, hplaced⟩ := h.bucket i a hi
  have hplaced' : ∀ x ∈ l.head ++ [it], Placed seed size i x := by
    intro x hx
    rw [List.mem_append, List.mem_singleton] at hx
    rcases hx with hx | rfl
    · exact hplaced x hx
    · exact hit
  obtain ⟨b', rest, hset, hinv, -, hiter, -, hother, hperm, hperm'⟩ :=
    h.setItems_eq hi hl hplaced'
  refine ⟨b', ?_, hinv, ?_, ?_⟩
  · simp [insertTail, hl, hset]
  · have hmove : (l.head ++ [it] ++ rest).Perm (it :: (l.head ++ rest)) := by
      rw [List.append_assoc]
      exact List.perm_middle
    exact hperm'.trans (hmove.trans (hperm.symm.cons it))
  · intro c hc _
    rw [hiter]
    have hca : c ≠ a := by
      rintro rfl
      exact hc (h.mem_iteratorList_iff.mpr ⟨i, hi⟩)
    exact ⟨hc, hother c hca⟩

/-- One round of the inner loop stores the item in the new buckets. -/
theorem moveItem_eq (h : BucketsInv seed size b) {it : HtItem}
    (hit : Hashed seed it) :
    ∃ b', moveItem size b it = some b' ∧ BucketsInv seed size b' ∧
      (stored b').Perm (it :: stored b) ∧ KeepsOthers b b' := by
  have hlt := h.slot_lt it.hash.toNat
  cases hslot : b.items[it.hash.toNat % size]? with
  | none =>
      rw [List.getElem?_eq_none_iff] at hslot
      omega
  | some p =>
      cases p with
      | some a =>
          obtain ⟨b', hrun, hinv, hperm, hkeep⟩ :=
            h.insertTail_eq hslot (hit.placed size)
          exact ⟨b', by simp [moveItem, hslot, hrun], hinv, hperm, hkeep⟩
      | none =>
          obtain ⟨hinv₁, hslot₁, -, hkeep₁, hstored₁⟩ := h.newList_eq hslot
          obtain ⟨b', hrun, hinv, hperm, hkeep⟩ :=
            hinv₁.insertTail_eq hslot₁ (hit.placed size)
          refine ⟨b', by simp [moveItem, hslot, hrun], hinv, ?_, ?_⟩
          · rwa [hstored₁] at hperm
          · refine KeepsOthers.trans ?_ hkeep
            intro c hc hlive
            obtain ⟨hne, heq⟩ := hkeep₁ c hlive
            refine ⟨?_, heq⟩
            rw [show (newList b (it.hash.toNat % size)).1.iteratorList =
              b.iteratorList ++ [(newList b (it.hash.toNat % size)).2] from rfl]
            simp [hc, hne]

/-- The inner loop stores all items of an old bucket. -/
theorem moveItems_eq :
    ∀ (its : List HtItem) {b : Buckets}, BucketsInv seed size b →
      (∀ it ∈ its, Hashed seed it) →
      ∃ b', its.foldlM (moveItem size) b = some b' ∧ BucketsInv seed size b' ∧
        (stored b').Perm (its ++ stored b) ∧ KeepsOthers b b' := by
  intro its
  induction its with
  | nil =>
      intro b h _
      exact ⟨b, rfl, h, List.Perm.refl _, KeepsOthers.refl b⟩
  | cons it its ih =>
      intro b h hits
      obtain ⟨b₁, hrun₁, hinv₁, hperm₁, hkeep₁⟩ :=
        h.moveItem_eq (hits it (by simp))
      obtain ⟨b₂, hrun₂, hinv₂, hperm₂, hkeep₂⟩ :=
        ih hinv₁ fun x hx => hits x (by simp [hx])
      refine ⟨b₂, ?_, hinv₂, ?_, hkeep₁.trans hkeep₂⟩
      · simp [List.foldlM_cons, hrun₁, hrun₂]
      · exact hperm₂.trans ((hperm₁.append_left its).trans List.perm_middle)

/-- Only registered buckets matter. -/
theorem of_lists (h : BucketsInv seed size b) {ls : Heap ItemsList}
    (hls : ∀ c ∈ b.iteratorList, ls c = b.lists c) :
    BucketsInv seed size { b with lists := ls } ∧
      stored { b with lists := ls } = stored b := by
  refine ⟨⟨h.sizePos, h.itemsLength, h.registered, h.nodup, ?_⟩, ?_⟩
  · intro i a hi
    have ha : a ∈ b.iteratorList := h.mem_iteratorList_iff.mpr ⟨i, hi⟩
    simp only [hls a ha]
    exact h.bucket i a hi
  · apply List.flatMap_congr
    intro c hc
    simp [bucketItems, hls c hc]

/-- The outer loop empties and releases one old bucket. -/
theorem moveList_eq (h : BucketsInv seed size b) {a : Addr} {l : ItemsList}
    (hl : b.lists a = some l) (ha : a ∉ b.iteratorList)
    (hits : ∀ it ∈ l.head, Hashed seed it) :
    ∃ b', moveList size b a = some b' ∧ BucketsInv seed size b' ∧
      (stored b').Perm (l.head ++ stored b) ∧
      ∀ c, c ≠ a → c ∉ b.iteratorList → (b.lists c).isSome →
        c ∉ b'.iteratorList ∧ b'.lists c = b.lists c := by
  obtain ⟨b₁, hrun, hinv, hperm, hkeep⟩ := moveItems_eq l.head h hits
  obtain ⟨ha₁, heq⟩ := hkeep a ha (by simp [hl])
  have hkill : ∀ c ∈ b₁.iteratorList, b₁.lists.kill a c = b₁.lists c := by
    intro c hc
    have hca : c ≠ a := fun heq' => ha₁ (heq' ▸ hc)
    simp [Heap.kill_apply, hca]
  obtain ⟨hinv', hstored⟩ := hinv.of_lists hkill
  refine ⟨{ b₁ with lists := b₁.lists.kill a }, ?_, hinv', ?_, ?_⟩
  · simp [moveList, hl, hrun, Heap.free, heq]
  · rwa [hstored]
  · intro c hca hc hlive
    obtain ⟨hc₁, hceq⟩ := hkeep c hc hlive
    exact ⟨hc₁, by simp [Heap.kill_apply, hca, hceq]⟩

/-- The outer loop moves the items of all old buckets. -/
theorem moveLists_eq (old : Buckets) :
    ∀ (as : List Addr) {b : Buckets}, BucketsInv seed size b → as.Nodup →
      (∀ a ∈ as, a ∉ b.iteratorList ∧ b.lists a = old.lists a ∧
        ∃ l, old.lists a = some l ∧ ∀ it ∈ l.head, Hashed seed it) →
      ∃ b', as.foldlM (moveList size) b = some b' ∧ BucketsInv seed size b' ∧
        (stored b').Perm (as.flatMap (bucketItems old) ++ stored b) := by
  intro as
  induction as with
  | nil =>
      intro b h _ _
      exact ⟨b, rfl, h, List.Perm.refl _⟩
  | cons a as ih =>
      intro b h hnd hold
      rw [List.nodup_cons] at hnd
      obtain ⟨ha, heq, l, hl, hits⟩ := hold a (by simp)
      obtain ⟨b₁, hrun₁, hinv₁, hperm₁, hkeep₁⟩ :=
        h.moveList_eq (heq.trans hl) ha hits
      have hold₁ : ∀ c ∈ as, c ∉ b₁.iteratorList ∧ b₁.lists c = old.lists c ∧
          ∃ l, old.lists c = some l ∧ ∀ it ∈ l.head, Hashed seed it := by
        intro c hc
        obtain ⟨hcb, hceq, lc, hlc, hitsc⟩ := hold c (by simp [hc])
        have hca : c ≠ a := fun heq' => hnd.1 (heq' ▸ hc)
        obtain ⟨hc₁, heq₁⟩ := hkeep₁ c hca hcb (by simp [hceq, hlc])
        exact ⟨hc₁, heq₁.trans hceq, lc, hlc, hitsc⟩
      obtain ⟨b₂, hrun₂, hinv₂, hperm₂⟩ := ih hinv₁ hnd.2 hold₁
      refine ⟨b₂, ?_, hinv₂, ?_⟩
      · simp [List.foldlM_cons, hrun₁, hrun₂]
      · rw [List.flatMap_cons, bucketItems_of_eq_some hl]
        have hswap : (as.flatMap (bucketItems old) ++ (l.head ++ stored b)).Perm
            (l.head ++ as.flatMap (bucketItems old) ++ stored b) := by
          rw [List.append_assoc]
          exact List.perm_append_comm_assoc _ _ _
        exact hperm₂.trans ((hperm₁.append_left _).trans hswap)

/-- An array of empty slots with nothing registered. -/
theorem replicate_none (hsize : 0 < size) (ls : Heap ItemsList) :
    BucketsInv seed size
      { lists := ls, items := List.replicate size none, iteratorList := [] } := by
  refine ⟨hsize, by simp, by simp, List.nodup_nil, ?_⟩
  intro i a hi
  rw [List.getElem?_replicate] at hi
  split at hi
  · cases hi
  · cases hi

end BucketsInv

theorem grownSize_eq {t : HashTable} (hfits : callocFits t.size) :
    t.grownSize = if t.maxSize ≠ 0 ∧ t.maxSize < t.size * 2 then t.maxSize
      else t.size * 2 := by
  have hshift : t.size <<< 1 % 2 ^ 64 = t.size * 2 := by
    rw [Nat.shiftLeft_eq, Nat.pow_one]
    apply Nat.mod_eq_of_lt
    unfold callocFits at hfits
    omega
  simp only [grownSize, hshift]

/-- `ht_grow_table` keeps the stored items up to order.  Unless nothing
changes, the new size respects the cap. -/
theorem htGrowTable_eq {t : HashTable} (h : TableInv t) :
    ∃ b n, t.htGrowTable = some { t with toBuckets := b, size := n } ∧
      TableInv { t with toBuckets := b, size := n } ∧
      (stored b).Perm (stored t.toBuckets) ∧
      (n = t.size ∨ t.maxSize = 0 ∨ n ≤ t.maxSize) := by
  by_cases hcap : t.maxSize ≠ 0 ∧ t.maxSize ≤ t.size
  · exact ⟨t.toBuckets, t.size, by simp [htGrowTable, hcap], h, List.Perm.refl _,
      Or.inl rfl⟩
  by_cases hfits : callocFits t.grownSize
  · have hsize := grownSize_eq h.fits
    have hpos : 0 < t.grownSize := by
      have := h.buckets.sizePos
      rw [hsize]
      split
      · omega
      · omega
    have hold : ∀ a ∈ t.iteratorList, a ∉ ([] : List Addr) ∧
        t.lists a = t.lists a ∧
        ∃ l, t.lists a = some l ∧ ∀ it ∈ l.head, Hashed t.seed it := by
      intro a ha
      obtain ⟨l, hl, -, hplaced⟩ := h.buckets.bucket_of_mem ha
      refine ⟨by simp, rfl, l, hl, ?_⟩
      intro it hit
      exact ⟨(hplaced it hit).keyNonempty, (hplaced it hit).hash_eq⟩
    obtain ⟨b, hrun, hinv, hperm⟩ := BucketsInv.moveLists_eq t.toBuckets
      t.iteratorList (BucketsInv.replicate_none hpos t.lists) h.buckets.nodup hold
    have hperm' : (stored b).Perm (stored t.toBuckets) := by
      simpa [stored] using hperm
    refine ⟨b, t.grownSize, ?_, ⟨hinv, hfits, ?_⟩, hperm', ?_⟩
    · simp [htGrowTable, hcap, hfits, hrun]
    · exact h.count.trans hperm'.length_eq.symm
    · right
      rw [hsize]
      split
      · right
        exact Nat.le_refl _
      · omega
  · exact ⟨t.toBuckets, t.size, by simp [htGrowTable, hcap, hfits], h,
      List.Perm.refl _, Or.inl rfl⟩

end HashTable
end LibHL
