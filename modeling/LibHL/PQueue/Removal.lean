import LibHL.BinHeap.StoppedWalk
import LibHL.PQueue.Refinement

/-!
# Walking the queue, and removing a value

The nodes of the heap store pointers to the items of the queue, and a walk of the queue
passes these pointers on to its callback.  The callback of `pqueue_remove` compares them
with the value that is to be removed, and nobody tells the caller what it found.
-/

namespace LibHL
namespace PQueue

variable {K V : Type} (cmp : K → K → ℤ)

/-- `pqueue_walk_callback_t`, without the queue.  What its private data hold is determined
by the items it has been called for. -/
abbrev PqueueWalkCallback (K V : Type) := List (K × PqueueItem K V) → K → V → ℤ

/-- `pqueue_walk_helper`.  The value it passes on is the one that the node stores, which is
the address of an item: `itemPointer i` is the address of the item that the walk comes to
after `i` others. -/
def pqueueWalkHelper (itemPointer : ℕ → V) (cb : PqueueWalkCallback K V) :
    BinHeap.WalkCallback K (PqueueItem K V) :=
  fun calls key _ => cb calls key (itemPointer calls.length)

/-- `pqueue_walk`. -/
def pqueueWalk (itemPointer : ℕ → V) (pq : PQueue K V) (cb : PqueueWalkCallback K V) :
    Option (PQueue K V × ℤ) := do
  let s ← BinHeap.binheapWalk cmp (pqueueWalkHelper itemPointer cb)
    (BinHeap.walkFuel pq.heap) pq.heap
  some ({ pq with heap := s.bh }, s.count)

/-- The nodes of the heap form a forest.  Their order plays no part. -/
def Linked (pq : PQueue K V) : Prop :=
  Forest pq.heap.nodes.live pq.heap.trees (BinHeap.parentOf pq.heap.nodes)
    (BinHeap.childrenOf pq.heap.nodes)

theorem Wf.linked {c : Comparator K} {pq : PQueue K V} (h : Wf c pq) : Linked pq :=
  h.heap.ordered.forest

variable [DecidableEq V]

/-- `pqueue_remove_helper`. -/
def pqueueRemoveHelper (argValue : V) : PqueueWalkCallback K V :=
  fun _ _ value => if value = argValue then -2 else 1

/-- `pqueue_remove`. -/
def pqueueRemove (itemPointer : ℕ → V) (pq : PQueue K V) (value : V) :
    Option (PQueue K V × ℤ) := do
  -- The helper is passed the address of `found`, and never writes to it.
  let found : ℤ := 0
  let r ← pqueueWalk cmp itemPointer pq (pqueueRemoveHelper value)
  some (r.1, if found ≠ 0 then 0 else -1)

/-! ## What a removal should do -/

/-- One entry with the value goes away, if there is one; else the queue is left alone and
the failure is reported. -/
def RemovesOne (itemPointer : ℕ → V) (pq : PQueue K V) (v : V) : Prop :=
  ((∃ prio, (prio, v) ∈ contents pq) → ∃ pq' prio, pqueueRemove cmp itemPointer pq v =
      some (pq', 0) ∧ contents pq = (prio, v) ::ₘ contents pq') ∧
  ((∀ prio, (prio, v) ∉ contents pq) → pqueueRemove cmp itemPointer pq v = some (pq, -1))

/-! ## What it does -/

variable {cmp} {itemPointer : ℕ → V} {pq pq' : PQueue K V} {v : V}

theorem pqueueRemove_rc {rc : ℤ} (h : pqueueRemove cmp itemPointer pq v = some (pq', rc)) :
    rc = -1 := by
  obtain ⟨r, -, hr⟩ := Option.bind_eq_some_iff.mp h
  cases hr
  rfl

theorem pqueueWalkHelper_eq_stopping (itemPointer : ℕ → V) (v : V) :
    pqueueWalkHelper itemPointer (pqueueRemoveHelper v : PqueueWalkCallback K V) =
      BinHeap.stopping fun i => decide (itemPointer i = v) := by
  funext calls key item
  by_cases heq : itemPointer calls.length = v
  · simp [pqueueWalkHelper, pqueueRemoveHelper, BinHeap.stopping, heq]
  · simp [pqueueWalkHelper, pqueueRemoveHelper, BinHeap.stopping, heq]

theorem passes_iff (n : ℕ) : BinHeap.Passes (fun i => decide (itemPointer i = v)) 0 n ↔
    ∀ i < n, itemPointer i ≠ v := by
  simp only [BinHeap.Passes, Nat.zero_add, decide_eq_false_iff_not, ne_eq]

/-- The removal leaves the queue alone if and only if the value is not an address of one of
its items. -/
theorem pqueueRemove_eq_self_iff (h : Linked pq) : pqueueRemove cmp itemPointer pq v =
    some (pq, -1) ↔ ∀ i < (contents pq).card, itemPointer i ≠ v := by
  have hcard : (contents pq).card = pq.heap.nodes.live.card := by
    rw [contents, Multiset.card_map, BinHeap.contents, Heap.card_bag]
  obtain ⟨hall, hstopped⟩ := BinHeap.binheapWalk_stopping cmp h
    fun i => decide (itemPointer i = v)
  rw [passes_iff, ← hcard] at hall hstopped
  constructor
  · intro hrun
    by_contra hnot
    obtain ⟨r, hwalk, hr⟩ := Option.bind_eq_some_iff.mp hrun
    obtain ⟨s, hs, hstate⟩ := Option.bind_eq_some_iff.mp hwalk
    rw [pqueueWalkHelper_eq_stopping] at hs
    refine hstopped hnot s hs ?_
    have hheap : r.1 = pq := congrArg Prod.fst (Option.some.inj hr)
    rw [← Option.some.inj hstate] at hheap
    exact congrArg PQueue.heap hheap
  · intro hnone
    obtain ⟨s, hrun, hbh, -⟩ := hall hnone
    rw [← pqueueWalkHelper_eq_stopping] at hrun
    simp [pqueueRemove, pqueueWalk, hrun, hbh]

/-- The call does what it should exactly if the value is not queued, and is not the address
of an item either. -/
theorem pqueueRemove_removesOne_iff (cmp : K → K → ℤ) (itemPointer : ℕ → V) (pq : PQueue K V)
    (h : Linked pq) (v : V) : RemovesOne cmp itemPointer pq v ↔
      (∀ prio, (prio, v) ∉ contents pq) ∧ ∀ i < (contents pq).card, itemPointer i ≠ v := by
  constructor
  · rintro ⟨hpresent, habsent⟩
    have hnone : ∀ prio, (prio, v) ∉ contents pq := by
      intro prio hmem
      obtain ⟨pq', _, hrun, -⟩ := hpresent ⟨prio, hmem⟩
      cases pqueueRemove_rc hrun
    exact ⟨hnone, (pqueueRemove_eq_self_iff h).mp (habsent hnone)⟩
  · rintro ⟨hnone, hpointer⟩
    refine ⟨?_, fun _ => (pqueueRemove_eq_self_iff h).mpr hpointer⟩
    rintro ⟨prio, hmem⟩
    exact absurd hmem (hnone prio)

omit [DecidableEq V] in
/-- There is a queue of any entries: the one into which they were inserted. -/
theorem exists_queued {c : Comparator K} (es : List (K × V)) (maxSize : ℕ)
    (hle : es.length ≤ maxSize) :
    ∃ pq : PQueue K V, Wf c pq ∧ pq.maxSize = maxSize ∧ contents pq = es := by
  induction es with
  | nil => exact ⟨pqueueCreate .highest maxSize, Wf.create c .highest maxSize, rfl, rfl⟩
  | cons e es ih =>
      rw [List.length_cons] at hle
      obtain ⟨pq, h, hmax, hcontents⟩ := ih (Nat.le_of_succ_le hle)
      obtain ⟨pq', -, h', -, hmax', -, hstep⟩ := pqueueInsert_refines h e.1 e.2
      refine ⟨pq', h', hmax'.trans hmax, ?_⟩
      rw [if_pos (by rw [hcontents, hmax, Multiset.coe_card]; exact hle)] at hstep
      rw [hstep, hcontents, Multiset.cons_coe]

/-- Of three queued values one cannot be removed; a value that is not queued, and is not the
address of an item either, leaves them alone. -/
theorem pqueueRemove_removesOne_iff_several :
    ∃ pq : PQueue Prio ℕ, Linked pq ∧
      contents pq = ↑[((⟨2, by decide⟩ : Prio), 9), (⟨5, by decide⟩, 8), (⟨3, by decide⟩, 7)] ∧
      RemovesOne prioComparator.cmp (fun i => 1000 + i) pq 6 ∧
      ¬ RemovesOne prioComparator.cmp (fun i => 1000 + i) pq 8 := by
  obtain ⟨pq, h, -, hcontents⟩ := exists_queued (c := prioComparator)
    [((⟨2, by decide⟩ : Prio), 9), (⟨5, by decide⟩, 8), (⟨3, by decide⟩, 7)] 4 (by decide)
  refine ⟨pq, h.linked, hcontents, ?_, ?_⟩
  · refine (pqueueRemove_removesOne_iff prioComparator.cmp (fun i => 1000 + i) pq h.linked
      6).mpr ⟨fun prio hmem => ?_, fun i _ => by omega⟩
    rw [hcontents, Multiset.mem_coe] at hmem
    simp at hmem
  · intro hremoves
    refine ((pqueueRemove_removesOne_iff prioComparator.cmp (fun i => 1000 + i) pq h.linked
      8).mp hremoves).1 ⟨5, by decide⟩ ?_
    rw [hcontents, Multiset.mem_coe]
    simp

/-- The value 7 is queued, and its removal fails. -/
theorem queued_value_not_removed :
    ∃ pq : PQueue Prio ℕ, Wf prioComparator pq ∧ contents pq = {(⟨3, by decide⟩, 7)} ∧
      pqueueRemove prioComparator.cmp (fun i => 1000 + i) pq 7 = some (pq, -1) ∧
      ¬ RemovesOne prioComparator.cmp (fun i => 1000 + i) pq 7 := by
  obtain ⟨pq, h, -, hcontents⟩ := exists_queued (c := prioComparator)
    [((⟨3, by decide⟩ : Prio), 7)] 2 (by decide)
  refine ⟨pq, h, hcontents, ?_, ?_⟩
  · refine (pqueueRemove_eq_self_iff h.linked).mpr fun i _ => ?_
    omega
  · rintro ⟨hpresent, -⟩
    obtain ⟨pq', _, hrun, -⟩ := hpresent ⟨⟨3, by decide⟩, by
      rw [hcontents]
      exact Multiset.mem_singleton_self _⟩
    cases pqueueRemove_rc hrun

end PQueue
end LibHL
