import LibHL.BinHeap.KeyTrees
import LibHL.PQueue.Model
import Mathlib.Tactic.Linarith

/-!
# Runs of the bounded priority queue

The queue is compared with a bag of at most `maxSize` items that gives up an item
when it overflows, and with one that gives up its worst item.  Every run is one of
the first bag.  It is one of the second if the trees of the heap, whenever they are
searched for a worst item, are such that the search does not leave it behind.
-/

namespace LibHL

/-- The priorities below `2 ^ 31`. -/
abbrev Prio := { p : UInt64 // p.toNat < 2 ^ 31 }

theorem libhlCmpKeysUint64_eq (p q : Prio) :
    libhlCmpKeysUint64 p.1 q.1 = (p.1.toNat : ℤ) - q.1.toNat := by
  have hp := p.2
  have hq := q.2
  rw [libhlCmpKeysUint64, ← Int32.toInt_toBitVec, UInt32.toBitVec_toInt32,
    BitVec.toInt_eq_toNat_bmod, UInt32.toNat_toBitVec, UInt64.toNat_toUInt32,
    UInt64.toNat_sub, Int.bmod_def]
  omega

/-- On these priorities the comparison is that of numbers. -/
def prioComparator : Comparator Prio where
  cmp := fun p q => libhlCmpKeysUint64 p.1 q.1
  dual := by
    intro p q
    rw [libhlCmpKeysUint64_eq, libhlCmpKeysUint64_eq]
    omega
  trans := by
    intro p q r
    rw [libhlCmpKeysUint64_eq, libhlCmpKeysUint64_eq, libhlCmpKeysUint64_eq]
    omega

namespace PQueue

open BinHeap (ForestLosesNone HasPrecedence IsExtremum Consistent keyForest)

variable {K V : Type}

/-- The operations of the queue. -/
inductive PqueueOp (K V : Type) where
  | insert (prio : K) (value : V)
  | pullHighest
  | pullLowest

/-- Perform an operation; the output is the return code, and the priority and
value handed out. -/
def stepOp (cmp : K → K → ℤ) (pq : PQueue K V) :
    PqueueOp K V → Option (PQueue K V × ℤ × Option (K × V))
  | .insert prio value => do
      let r ← pqueueInsert cmp pq prio value
      some (r.1, r.2, none)
  | .pullHighest => pqueuePullHighest cmp pq
  | .pullLowest => pqueuePullLowest cmp pq

/-- The search for a worst item among trees with these keys does not leave it behind. -/
def WorstKept (cmp : K → K → ℤ) (mode : PqueueMode) : Option (List (KeyTree K)) → Prop
  | none => False
  | some ts => ForestLosesNone cmp (worstSide mode) ts

instance decidableWorstKept (cmp : K → K → ℤ) (mode : PqueueMode) :
    ∀ ts, Decidable (WorstKept cmp mode ts)
  | none => isFalse id
  | some ts => BinHeap.decidableForestLosesNone cmp (worstSide mode) ts

/-- An operation that removes at the worst end finds a worst item, by the keys of the heap
before it.  An insertion into a full queue adds its priority to them. -/
def WorstEndKept (cmp : K → K → ℤ) (pq : PQueue K V) : PqueueOp K V → Prop
  | .insert prio _ => pq.maxSize ≤ pqueueCount pq → WorstKept cmp pq.mode
      ((keyForest pq.heap).map
        (KeyTree.insert (HasPrecedence cmp (bestSide pq.mode)) (.node prio [])))
  | .pullHighest => True
  | .pullLowest => WorstKept cmp pq.mode (keyForest pq.heap)

instance decidableWorstEndKept (cmp : K → K → ℤ) (pq : PQueue K V) :
    ∀ op, Decidable (WorstEndKept cmp pq op)
  | .insert _ _ => inferInstanceAs (Decidable (_ → _))
  | .pullHighest => isTrue trivial
  | .pullLowest => inferInstanceAs (Decidable (WorstKept cmp pq.mode (keyForest pq.heap)))

/-! ## The bounded bag -/

/-- An item of the bag that `chosen` allows is pulled, or there is none. -/
def Pulls (chosen : Multiset (K × V) → K × V → Prop) (bag : Multiset (K × V))
    (o : ℤ × Option (K × V)) (bag' : Multiset (K × V)) : Prop :=
  (o = (-1, none) ∧ bag = 0 ∧ bag' = 0) ∨
    ∃ i, chosen bag i ∧ o = (0, some i) ∧ bag = i ::ₘ bag'

/-- What the operations do to a bag of at most `maxSize` items.  At the worst end they
remove an item that `chosen` allows. -/
def boundedStep (c : Comparator K) (mode : PqueueMode)
    (chosen : Multiset (K × V) → K × V → Prop) (maxSize : ℕ) (bag : Multiset (K × V))
    (op : PqueueOp K V) (o : ℤ × Option (K × V)) (bag' : Multiset (K × V)) : Prop :=
  match op with
  | .insert prio value => o = (0, none) ∧
      if bag.card < maxSize then bag' = (prio, value) ::ₘ bag
      else ∃ i, chosen ((prio, value) ::ₘ bag) i ∧ (prio, value) ::ₘ bag = i ::ₘ bag'
  | .pullHighest => Pulls (IsExtremum c (bestSide mode)) bag o bag'
  | .pullLowest => Pulls chosen bag o bag'

/-- An item that is a worst one of the bag on a condition. -/
def WorstIf (c : Comparator K) (mode : PqueueMode) (kept : Prop) (bag : Multiset (K × V))
    (i : K × V) : Prop :=
  kept → IsExtremum c (worstSide mode) bag i

/-- The bag gives up worst items at the worst end. -/
def queueStep (c : Comparator K) (mode : PqueueMode) (maxSize : ℕ) :
    Multiset (K × V) → PqueueOp K V → ℤ × Option (K × V) → Multiset (K × V) → Prop :=
  boundedStep c mode (IsExtremum c (worstSide mode)) maxSize

/-- The bag gives up whatever items at the worst end. -/
def looseStep (c : Comparator K) (mode : PqueueMode) (maxSize : ℕ) :
    Multiset (K × V) → PqueueOp K V → ℤ × Option (K × V) → Multiset (K × V) → Prop :=
  boundedStep c mode (fun _ _ => True) maxSize

/-- The item an operation inserts. -/
def insertedItem : PqueueOp K V → Option (K × V)
  | .insert prio value => some (prio, value)
  | .pullHighest => none
  | .pullLowest => none

/-- The bag holds `maxSize` best ones of a bag of items, or all if there are not
more. -/
def HoldsBest (c : Comparator K) (mode : PqueueMode) (maxSize : ℕ)
    (items bag : Multiset (K × V)) : Prop :=
  bag.card = min maxSize items.card ∧ ∃ dropped, items = bag + dropped ∧
    ∀ i ∈ bag, ∀ j ∈ dropped, HasPrecedence c.cmp (bestSide mode) i.1 j.1

variable {c : Comparator K} {mode : PqueueMode} {maxSize : ℕ} {pq : PQueue K V}
  {chosen chosen' : Multiset (K × V) → K × V → Prop}

theorem Pulls.imp {bag bag' : Multiset (K × V)} {o : ℤ × Option (K × V)}
    (himp : ∀ i, chosen bag i → chosen' bag i) (h : Pulls chosen bag o bag') :
    Pulls chosen' bag o bag' := by
  rcases h with hnone | ⟨i, hi, ho, hbag⟩
  · exact Or.inl hnone
  · exact Or.inr ⟨i, himp i hi, ho, hbag⟩

theorem boundedStep_imp {bag bag' : Multiset (K × V)} {op : PqueueOp K V}
    {o : ℤ × Option (K × V)} (himp : ∀ bag i, chosen bag i → chosen' bag i)
    (h : boundedStep c mode chosen maxSize bag op o bag') :
    boundedStep c mode chosen' maxSize bag op o bag' := by
  cases op with
  | insert prio value =>
      obtain ⟨ho, h⟩ := h
      refine ⟨ho, ?_⟩
      split
      · next hroom => rwa [if_pos hroom] at h
      · next hroom =>
          rw [if_neg hroom] at h
          obtain ⟨i, hi, hbag⟩ := h
          exact ⟨i, himp _ i hi, hbag⟩
  | pullHighest => exact h
  | pullLowest => exact Pulls.imp (himp bag) h

theorem hasPrecedence_worst_iff (k₁ k₂ : K) :
    HasPrecedence c.cmp (worstSide mode) k₁ k₂ ↔
      HasPrecedence c.cmp (bestSide mode) k₂ k₁ := by
  cases mode with
  | highest => exact (c.dual k₂ k₁).symm
  | lowest => exact c.dual k₁ k₂

/-- Dropping a worst item of the bag and the new one keeps the best items. -/
theorem HoldsBest.insert {items bag bag' : Multiset (K × V)} {prio : K} {value : V}
    {o : ℤ × Option (K × V)} (h : HoldsBest c mode maxSize items bag)
    (hstep : queueStep c mode maxSize bag (.insert prio value) o bag') :
    HoldsBest c mode maxSize ((prio, value) ::ₘ items) bag' := by
  obtain ⟨hcard, dropped, hsplit, hbest⟩ := h
  obtain ⟨-, hstep⟩ := hstep
  have hitems : items.card = bag.card + dropped.card := by rw [hsplit, Multiset.card_add]
  by_cases hroom : bag.card < maxSize
  · rw [if_pos hroom] at hstep
    have hnone : dropped = 0 := Multiset.card_eq_zero.mp (by omega)
    refine ⟨?_, 0, ?_, ?_⟩
    · rw [hstep, Multiset.card_cons, Multiset.card_cons]
      omega
    · rw [hstep, hsplit, hnone, add_zero, add_zero]
    · intro i _ j hj
      exact absurd hj (Multiset.notMem_zero j)
  · rw [if_neg hroom] at hstep
    obtain ⟨w, ⟨hw, hworst⟩, heq⟩ := hstep
    have hcard' : bag'.card = bag.card := by
      have := congrArg Multiset.card heq
      rw [Multiset.card_cons, Multiset.card_cons] at this
      omega
    refine ⟨by rw [hcard', Multiset.card_cons]; omega, w ::ₘ dropped, ?_, ?_⟩
    · rw [hsplit, ← Multiset.cons_add, heq, Multiset.add_cons, Multiset.cons_add]
    · intro i hi j hj
      have hi' : i ∈ (prio, value) ::ₘ bag := by
        rw [heq]
        exact Multiset.mem_cons_of_mem hi
      have hiw : HasPrecedence c.cmp (bestSide mode) i.1 w.1 :=
        (hasPrecedence_worst_iff w.1 i.1).mp (hworst i hi')
      rcases Multiset.mem_cons.mp hj with rfl | hjd
      · exact hiw
      rcases Multiset.mem_cons.mp hw with rfl | hwbag
      · -- The new item itself is dropped, so the bag is the old one.
        rw [(Multiset.cons_inj_right _).mp heq] at hbest
        exact hbest i hi j hjd
      · exact BinHeap.hasPrecedence_trans c hiw (hbest w hwbag j hjd)

/-- Insertions alone leave the best items. -/
theorem holdsBest_of_inserts {ops : List (PqueueOp K V)} :
    ∀ {items bag bag' : Multiset (K × V)} {outs : List (ℤ × Option (K × V))},
      HoldsBest c mode maxSize items bag → (∀ op ∈ ops, (insertedItem op).isSome) →
      RefRuns (queueStep c mode maxSize) bag ops outs bag' →
      HoldsBest c mode maxSize (items + (ops.filterMap insertedItem : Multiset (K × V)))
        bag' := by
  induction ops with
  | nil =>
      intro items bag bag' outs h _ hrun
      cases hrun
      rw [List.filterMap_nil, Multiset.coe_nil, add_zero]
      exact h
  | cons op ops ih =>
      intro items bag bag' outs h hins hrun
      cases hrun with
      | cons head tail =>
          have hop := hins op List.mem_cons_self
          have hrest := fun op' hop' => hins op' (List.mem_cons_of_mem op hop')
          cases op with
          | insert prio value =>
              have hbest := ih (h.insert head) hrest tail
              have hcons : (PqueueOp.insert prio value :: ops).filterMap insertedItem =
                  (prio, value) :: ops.filterMap insertedItem := rfl
              rw [Multiset.cons_add] at hbest
              rw [hcons, ← Multiset.cons_coe, Multiset.add_cons]
              exact hbest
          | pullHighest => cases hop
          | pullLowest => cases hop

/-! ## One operation -/

/-- What a pull hands out for an item of the heap. -/
def entry (i : K × PqueueItem K V) : K × V := (i.2.prio, i.2.value)

/-- The bag of the stored priorities and values. -/
def contents (pq : PQueue K V) : Multiset (K × V) := (BinHeap.contents pq.heap).map entry

/-- The items of a bag carry the priority they are stored under. -/
def Matched (bag : Multiset (K × PqueueItem K V)) : Prop := ∀ i ∈ bag, i.2.prio = i.1

/-- The heap is consistent and organised for the best end, its items carry their
priorities, and there are not too many. -/
structure Wf (c : Comparator K) (pq : PQueue K V) : Prop where
  heap : Consistent c pq.heap
  mode : pq.heap.mode = bestSide pq.mode
  matched : Matched (BinHeap.contents pq.heap)
  bounded : pq.heap.count ≤ pq.maxSize

theorem card_contents (pq : PQueue K V) (h : Consistent c pq.heap) :
    pq.heap.count = (contents pq).card := by
  rw [contents, Multiset.card_map, BinHeap.contents, Heap.card_bag, h.count]

theorem IsExtremum.entry {side : BinheapMode} {bag : Multiset (K × PqueueItem K V)}
    (hmatched : Matched bag) {i : K × PqueueItem K V} (h : IsExtremum c side bag i) :
    IsExtremum c side (bag.map entry) (entry i) := by
  refine ⟨Multiset.mem_map_of_mem _ h.1, ?_⟩
  intro j hj
  obtain ⟨i', hi', rfl⟩ := Multiset.mem_map.mp hj
  have hprec := h.2 i' hi'
  rw [← hmatched i h.1, ← hmatched i' hi'] at hprec
  exact hprec

/-- A removal from the heap, seen at the queue. -/
theorem pulls_of_removes {allowed : K × PqueueItem K V → Prop}
    {bag bag' : Multiset (K × PqueueItem K V)} {o : ℤ × Option (PqueueItem K V)}
    (hmatched : Matched bag) (himp : ∀ i, allowed i → chosen (bag.map entry) (entry i))
    (h : (o = (-1, none) ∧ bag = 0 ∧ bag' = 0) ∨ BinHeap.Removes allowed bag o bag') :
    Matched bag' ∧ ∃ o', handOut o.1 o.2 = some o' ∧
      Pulls chosen (bag.map entry) o' (bag'.map entry) := by
  rcases h with ⟨rfl, rfl, rfl⟩ | ⟨i, hi, rfl, rfl⟩
  · exact ⟨hmatched, (-1, none), rfl, Or.inl ⟨rfl, rfl, rfl⟩⟩
  · refine ⟨fun j hj => hmatched j (Multiset.mem_cons_of_mem hj), (0, some (entry i)), rfl,
      Or.inr ⟨entry i, himp i hi, rfl, ?_⟩⟩
    rw [Multiset.map_cons]

theorem deleteBest_eq (cmp : K → K → ℤ) (pq : PQueue K V) :
    deleteBest cmp pq = BinHeap.deleteExtremum cmp pq.heap (bestSide pq.mode) := by
  unfold deleteBest
  cases hmode : pq.mode with
  | highest => rfl
  | lowest => rfl

theorem deleteWorst_eq (cmp : K → K → ℤ) (pq : PQueue K V) :
    deleteWorst cmp pq = BinHeap.deleteExtremum cmp pq.heap (worstSide pq.mode) := by
  unfold deleteWorst
  cases hmode : pq.mode with
  | highest => rfl
  | lowest => rfl

theorem worstSide_eq (mode : PqueueMode) : worstSide mode = BinHeap.opposite (bestSide mode) := by
  cases mode with
  | highest => rfl
  | lowest => rfl

/-- A removal at the worst end. -/
theorem deleteWorst_spec (pq : PQueue K V) (h : Consistent c pq.heap)
    (hmode : pq.heap.mode = bestSide pq.mode) (hmatched : Matched (BinHeap.contents pq.heap)) :
    ∃ heap o o', deleteWorst c.cmp pq = some (heap, o) ∧ handOut o.1 o.2 = some o' ∧
      Consistent c heap ∧ heap.mode = bestSide pq.mode ∧ Matched (BinHeap.contents heap) ∧
      Pulls (WorstIf c pq.mode (WorstKept c.cmp pq.mode (keyForest pq.heap))) (contents pq) o'
        (contents { pq with heap := heap }) := by
  obtain ⟨ts, hts⟩ := h.exists_keyForest
  obtain ⟨heap, o, hrun, h', hmode', hbag⟩ := BinHeap.deleteExtremum_opposite h hts
  rw [hmode, ← worstSide_eq] at hrun hbag
  have himp : ∀ i, (ForestLosesNone c.cmp (worstSide pq.mode) ts →
      IsExtremum c (worstSide pq.mode) (BinHeap.contents pq.heap) i) →
      WorstIf c pq.mode (WorstKept c.cmp pq.mode (keyForest pq.heap)) (contents pq) (entry i) :=
    fun i hi hkept => IsExtremum.entry hmatched (hi (by rwa [hts] at hkept))
  obtain ⟨hmatched', o', hout, hpulls⟩ := pulls_of_removes hmatched himp hbag
  refine ⟨heap, o, o', ?_, hout, h', hmode'.trans hmode, hmatched', hpulls⟩
  rw [deleteWorst_eq, hrun]

theorem Pulls.card_le {bag bag' : Multiset (K × V)} {o : ℤ × Option (K × V)}
    (h : Pulls chosen bag o bag') : bag'.card ≤ bag.card := by
  rcases h with ⟨-, rfl, rfl⟩ | ⟨i, -, -, rfl⟩
  · exact Nat.le_refl _
  · rw [Multiset.card_cons]
    exact Nat.le_succ _

theorem Wf.pull {heap : BinHeap K (PqueueItem K V)} {o : ℤ × Option (K × V)} (h : Wf c pq)
    (hc : Consistent c heap) (hmode : heap.mode = bestSide pq.mode)
    (hmatched : Matched (BinHeap.contents heap))
    (hpulls : Pulls chosen (contents pq) o (contents { pq with heap := heap })) :
    Wf c { pq with heap := heap } := by
  refine ⟨hc, hmode, hmatched, ?_⟩
  have hle := hpulls.card_le
  have hold := card_contents pq h.heap
  have hnew : heap.count = (contents { pq with heap := heap }).card :=
    card_contents { pq with heap := heap } hc
  have hbound := h.bounded
  show heap.count ≤ (pq.maxSize : ℤ)
  omega

theorem pqueuePullHighest_refines (h : Wf c pq) :
    ∃ pq' o, pqueuePullHighest c.cmp pq = some (pq', o) ∧ Wf c pq' ∧
      pq'.mode = pq.mode ∧ pq'.maxSize = pq.maxSize ∧
      Pulls (IsExtremum c (bestSide pq.mode)) (contents pq) o (contents pq') := by
  obtain ⟨heap, o, hrun, hc, hmode, hbag⟩ :=
    BinHeap.deleteExtremum_spec h.heap (bestSide pq.mode)
  have hbag' := hbag.imp_right (BinHeap.Removes.imp fun _ hi => hi h.mode)
  rw [h.mode] at hbag'
  obtain ⟨hmatched, o', hout, hpulls⟩ := pulls_of_removes h.matched
    (fun i hi => IsExtremum.entry h.matched hi) hbag'
  refine ⟨{ pq with heap := heap }, o', ?_, h.pull hc (hmode.trans h.mode) hmatched hpulls,
    rfl, rfl, hpulls⟩
  simp [pqueuePullHighest, deleteBest_eq, hrun, hout]

theorem pqueuePullLowest_refines (h : Wf c pq) :
    ∃ pq' o, pqueuePullLowest c.cmp pq = some (pq', o) ∧ Wf c pq' ∧
      pq'.mode = pq.mode ∧ pq'.maxSize = pq.maxSize ∧
      Pulls (WorstIf c pq.mode (WorstEndKept c.cmp pq .pullLowest)) (contents pq) o
        (contents pq') := by
  obtain ⟨heap, o, o', hrun, hout, hc, hmode, hmatched, hpulls⟩ :=
    deleteWorst_spec pq h.heap h.mode h.matched
  refine ⟨{ pq with heap := heap }, o', ?_, h.pull hc hmode hmatched hpulls, rfl, rfl, hpulls⟩
  simp [pqueuePullLowest, hrun, hout]

/-- `pqueue_insert`: the heap that an overflow searches has the keys of the old one and the
new priority. -/
theorem pqueueInsert_refines (h : Wf c pq) (prio : K) (value : V) :
    ∃ pq', pqueueInsert c.cmp pq prio value = some (pq', 0) ∧ Wf c pq' ∧
      pq'.mode = pq.mode ∧ pq'.maxSize = pq.maxSize ∧
      boundedStep c pq.mode (WorstIf c pq.mode (WorstEndKept c.cmp pq (.insert prio value)))
        pq.maxSize (contents pq) (.insert prio value) (0, none) (contents pq') := by
  obtain ⟨ts, hts⟩ := h.heap.exists_keyForest
  obtain ⟨heap, hins, hc, hmode, hbag, hkeys⟩ :=
    BinHeap.binheapInsert_keyForest h.heap prio { value := value, prio := prio } hts
  rw [h.mode] at hkeys
  have hmode' : heap.mode = bestSide pq.mode := hmode.trans h.mode
  have hmatched : Matched (BinHeap.contents heap) := by
    rw [hbag]
    intro i hi
    rcases Multiset.mem_cons.mp hi with rfl | hi
    · rfl
    · exact h.matched i hi
  have hcontents : contents { pq with heap := heap } = (prio, value) ::ₘ contents pq := by
    show (BinHeap.contents heap).map entry = _
    rw [hbag, Multiset.map_cons]
    rfl
  have hcount : heap.count = pq.heap.count + 1 := by
    have hnew : heap.count = (contents { pq with heap := heap }).card :=
      card_contents { pq with heap := heap } hc
    rw [hnew, hcontents, Multiset.card_cons, card_contents pq h.heap]
    rfl
  have hcard := card_contents pq h.heap
  have hbound := h.bounded
  by_cases hover : (pq.maxSize : ℤ) < heap.count
  · obtain ⟨heap', o, o', hrun, hout, hc', hmode'', hmatched', hpulls⟩ :=
      deleteWorst_spec { pq with heap := heap } hc hmode' hmatched
    have hone : heap.count.toNat - pq.maxSize = 1 := by omega
    have hpos : heap.count ≠ 0 := by omega
    rw [hcontents] at hpulls
    rcases hpulls with ⟨-, hzero, -⟩ | ⟨i, hi, -, heq⟩
    · exact absurd hzero (Multiset.cons_ne_zero)
    have heq' : (prio, value) ::ₘ contents pq = i ::ₘ contents { pq with heap := heap' } := heq
    have hcount' : heap'.count = pq.heap.count := by
      have hnew : heap'.count = (contents { pq with heap := heap' }).card :=
        card_contents { pq with heap := heap' } hc'
      have := congrArg Multiset.card heq'
      rw [Multiset.card_cons, Multiset.card_cons] at this
      omega
    refine ⟨{ pq with heap := heap' }, ?_, ⟨hc', hmode'', hmatched', ?_⟩, rfl, rfl, rfl, ?_⟩
    · simp [pqueueInsert, hins, BinHeap.binheapCount, hover, hone, pqueueDropItems, hpos, hrun]
    · show heap'.count ≤ (pq.maxSize : ℤ)
      omega
    · rw [if_neg (by omega)]
      refine ⟨i, fun hkept => hi ?_, heq'⟩
      have hfull : (pq.maxSize : ℤ) ≤ pqueueCount pq := by
        show (pq.maxSize : ℤ) ≤ pq.heap.count
        omega
      have hworst := hkept hfull
      rwa [hts, Option.map_some, ← hkeys] at hworst
  · refine ⟨{ pq with heap := heap }, ?_, ⟨hc, hmode', hmatched, Int.not_lt.mp hover⟩,
      rfl, rfl, rfl, ?_⟩
    · simp [pqueueInsert, hins, BinHeap.binheapCount, hover]
    · rw [if_pos (by omega)]
      exact hcontents

/-- One operation. -/
theorem stepOp_refines (h : Wf c pq) (op : PqueueOp K V) :
    ∃ pq' o, stepOp c.cmp pq op = some (pq', o) ∧
      boundedStep c pq.mode (WorstIf c pq.mode (WorstEndKept c.cmp pq op)) pq.maxSize
        (contents pq) op o (contents pq') ∧ Wf c pq' ∧ pq'.mode = pq.mode ∧ pq'.maxSize = pq.maxSize := by
  cases op with
  | insert prio value =>
      obtain ⟨pq', hrun, h', hmode, hmax, hstep⟩ := pqueueInsert_refines h prio value
      exact ⟨pq', (0, none), by simp [stepOp, hrun], hstep, h', hmode, hmax⟩
  | pullHighest =>
      obtain ⟨pq', o, hrun, h', hmode, hmax, hstep⟩ := pqueuePullHighest_refines h
      exact ⟨pq', o, hrun, hstep, h', hmode, hmax⟩
  | pullLowest =>
      obtain ⟨pq', o, hrun, h', hmode, hmax, hstep⟩ := pqueuePullLowest_refines h
      exact ⟨pq', o, hrun, hstep, h', hmode, hmax⟩

/-! ## Runs -/

theorem Wf.create (c : Comparator K) (mode : PqueueMode) (size : ℕ) :
    Wf c (pqueueCreate mode size : PQueue K V) where
  heap := Consistent.create c (bestSide mode)
  mode := rfl
  matched := fun i hi => absurd hi (Multiset.notMem_zero i)
  bounded := Int.natCast_nonneg size

/-- The queue with this bound and these contents. -/
def Models (mode : PqueueMode) (size : ℕ) (pq : PQueue Prio V) (bag : Multiset (Prio × V)) :
    Prop :=
  Wf prioComparator pq ∧ pq.mode = mode ∧ pq.maxSize = size ∧ contents pq = bag

theorem models_step (mode : PqueueMode) (size : ℕ) (pq : PQueue Prio V)
    (bag : Multiset (Prio × V)) (op : PqueueOp Prio V) (h : Models mode size pq bag) :
    ∃ pq' o bag', stepOp prioComparator.cmp pq op = some (pq', o) ∧
      looseStep prioComparator mode size bag op o bag' ∧
      (WorstEndKept prioComparator.cmp pq op →
        queueStep prioComparator mode size bag op o bag') ∧ Models mode size pq' bag' := by
  obtain ⟨h, rfl, rfl, rfl⟩ := h
  obtain ⟨pq', o, hrun, href, h', hmode, hmax⟩ := stepOp_refines h op
  exact ⟨pq', o, contents pq', hrun, boundedStep_imp (fun _ _ _ => trivial) href,
    fun hkept => boundedStep_imp (fun _ _ hi => hi hkept) href, h', hmode, hmax, rfl⟩

/-- In every run the queue never holds more than its bound, the pulls at the best end
return a best item, and an item that is pulled or dropped at the worst end is one of those
held.  If the steps do not leave the worst item behind, the others are a worst item, and
insertions alone leave the best items. -/
theorem pqueue_refines_boundedBag (mode : PqueueMode) (size : ℕ)
    (ops : List (PqueueOp Prio V)) :
    ∃ pq outs, runSteps (stepOp prioComparator.cmp) (pqueueCreate mode size) ops =
        some (pq, outs) ∧
      RefRuns (looseStep prioComparator mode size) 0 ops outs (contents pq) ∧
      pqueueCount pq = (contents pq).card ∧ pqueueCount pq ≤ size ∧
      (StepsMeet (stepOp prioComparator.cmp) (WorstEndKept prioComparator.cmp)
          (pqueueCreate mode size) ops →
        RefRuns (queueStep prioComparator mode size) 0 ops outs (contents pq) ∧
        ((∀ op ∈ ops, (insertedItem op).isSome) →
          HoldsBest prioComparator mode size (ops.filterMap insertedItem) (contents pq))) := by
  have hstart : Models mode size (pqueueCreate mode size) (0 : Multiset (Prio × V)) :=
    ⟨Wf.create prioComparator mode size, rfl, rfl, rfl⟩
  have hloose : ∀ (pq : PQueue Prio V) (bag : Multiset (Prio × V)) (op : PqueueOp Prio V),
      Models mode size pq bag → ∃ pq' o bag', stepOp prioComparator.cmp pq op = some (pq', o) ∧
        looseStep prioComparator mode size bag op o bag' ∧ Models mode size pq' bag' := by
    intro pq bag op hm
    obtain ⟨pq', o, bag', hrun, href, -, hm'⟩ := models_step mode size pq bag op hm
    exact ⟨pq', o, bag', hrun, href, hm'⟩
  have hstrict : ∀ (pq : PQueue Prio V) (bag : Multiset (Prio × V)) (op : PqueueOp Prio V),
      Models mode size pq bag → WorstEndKept prioComparator.cmp pq op →
      ∃ pq' o bag', stepOp prioComparator.cmp pq op = some (pq', o) ∧
        queueStep prioComparator mode size bag op o bag' ∧ Models mode size pq' bag' := by
    intro pq bag op hm hkept
    obtain ⟨pq', o, bag', hrun, -, href, hm'⟩ := models_step mode size pq bag op hm
    exact ⟨pq', o, bag', hrun, href hkept, hm'⟩
  obtain ⟨pq, outs, bag, hrun, hrefs, h, rfl, rfl, rfl⟩ :=
    runSteps_refines_choice hloose ops (pqueueCreate mode size) 0 hstart
  refine ⟨pq, outs, hrun, hrefs, card_contents pq h.heap, h.bounded, fun hmeet => ?_⟩
  obtain ⟨pq', outs', bag', hrun', href, -, -, -, rfl⟩ :=
    runSteps_refines_choice_of_meet hstrict ops (pqueueCreate pq.mode pq.maxSize) 0 hstart hmeet
  rw [hrun] at hrun'
  cases hrun'
  refine ⟨href, fun hins => ?_⟩
  have hnone : HoldsBest prioComparator pq.mode pq.maxSize (0 : Multiset (Prio × V)) 0 :=
    ⟨(Nat.min_zero _).symm, 0, rfl, fun i hi => absurd hi (Multiset.notMem_zero i)⟩
  have hbest := holdsBest_of_inserts hnone hins href
  rwa [zero_add] at hbest

/-- Ascending priorities that overflow a queue of two, and pulls at both ends. -/
def ascendingRun : List (PqueueOp Prio ℕ) :=
  [.insert ⟨1, by decide⟩ 11, .insert ⟨2, by decide⟩ 12, .insert ⟨3, by decide⟩ 13,
    .pullLowest, .pullHighest, .pullHighest]

theorem pqueue_refines_boundedBag_ascending :
    StepsMeet (stepOp prioComparator.cmp) (WorstEndKept prioComparator.cmp)
        (pqueueCreate .highest 2) ascendingRun ∧
      ∃ pq outs, runSteps (stepOp prioComparator.cmp) (pqueueCreate .highest 2)
          ascendingRun = some (pq, outs) ∧
        RefRuns (queueStep prioComparator .highest 2) 0 ascendingRun outs (contents pq) ∧
        pqueueCount pq ≤ 2 := by
  have hmeet : StepsMeet (stepOp prioComparator.cmp) (WorstEndKept prioComparator.cmp)
      (pqueueCreate .highest 2) ascendingRun := by decide +kernel
  obtain ⟨pq, outs, hrun, -, -, hle, hkept⟩ :=
    pqueue_refines_boundedBag .highest 2 ascendingRun
  exact ⟨hmeet, pq, outs, hrun, (hkept hmeet).1, hle⟩

/-- Three insertions into a queue of two: the worst item sits below the best one. -/
def shadowedRun : List (PqueueOp Prio ℕ) :=
  [.insert ⟨1, by decide⟩ 11, .insert ⟨10, by decide⟩ 12, .insert ⟨5, by decide⟩ 13]

/-- The overflow drops priority 5 and keeps priority 1. -/
theorem shadowedRun_keeps_worst :
    ∃ pq outs, runSteps (stepOp prioComparator.cmp) (pqueueCreate .highest 2) shadowedRun =
        some (pq, outs) ∧
      ¬ HoldsBest prioComparator .highest 2 (shadowedRun.filterMap insertedItem)
        (contents pq) := by
  have hrun : ((runSteps (stepOp prioComparator.cmp) (pqueueCreate .highest 2)
      shadowedRun).map fun r => contents r.1) =
        some {(⟨10, by decide⟩, 12), (⟨1, by decide⟩, 11)} := by
    decide
  obtain ⟨⟨pq, outs⟩, hrun, hcontents⟩ := Option.map_eq_some_iff.mp hrun
  refine ⟨pq, outs, hrun, ?_⟩
  rintro ⟨-, dropped, hsplit, hbest⟩
  have hcontents' : contents pq = {(⟨10, by decide⟩, 12), (⟨1, by decide⟩, 11)} := hcontents
  rw [hcontents'] at hsplit hbest
  have hmem : ((⟨5, by decide⟩, 13) : Prio × ℕ) ∈ dropped := by
    have hall : ((⟨5, by decide⟩, 13) : Prio × ℕ) ∈
        ((shadowedRun.filterMap insertedItem : List (Prio × ℕ)) : Multiset (Prio × ℕ)) := by
      decide
    rw [hsplit] at hall
    refine (Multiset.mem_add.mp hall).resolve_left ?_
    decide
  have hprec := hbest (⟨1, by decide⟩, 11) (by decide) _ hmem
  revert hprec
  decide

end PQueue
end LibHL
