import LibHL.PQueue.Refinement
import LibHL.Support.Holdings

/-!
# The lives of the values of a priority queue

An insertion that overflows the queue drops a value, and `pqueue_destroy` drops all that are
left, so that the heap under the queue is empty when it is destroyed.  Which value is dropped
depends on the search for the worst item, but each value is dropped or handed out once.
-/

namespace LibHL

variable {K V : Type}

/-! ## The heap under the queue -/

namespace BinHeap

/-- The loop of `binheap_destroy`, which ends when the search does not find a node. -/
def destroyLoop (cmp : K → K → ℤ) : ℕ → BinHeap K V → Option (BinHeap K V)
  | 0, _ => none
  | fuel + 1, bh => do
      let r ← getExtremum cmp bh bh.mode
      match r.1 with
      | none => some bh
      | some a => do
          let bh ← binomialTreeNodeDestroy cmp bh a 0
          destroyLoop cmp fuel bh

/-- `binheap_destroy`.  The bound is one that is never reached. -/
def binheapDestroy (cmp : K → K → ℤ) (bh : BinHeap K V) : Option (BinHeap K V) :=
  destroyLoop cmp (bh.nodes.brk + 1) bh

variable {c : Comparator K} {bh : BinHeap K V}

theorem Consistent.card_contents (h : Consistent c bh) : bh.count = (contents bh).card := by
  rw [contents, Heap.card_bag, h.count]

theorem destroyLoop_spec : ∀ (fuel : ℕ) (bh : BinHeap K V), Consistent c bh →
    (contents bh).card < fuel → ∃ bh', destroyLoop c.cmp fuel bh = some bh' ∧
      ∀ a, bh'.nodes a = none := by
  intro fuel
  induction fuel with
  | zero => exact fun bh _ hlt => absurd hlt (Nat.not_lt_zero _)
  | succ fuel ih =>
      intro bh h hlt
      obtain ⟨r, hget, hfinds⟩ := getExtremum_finds c h.ordered h.headTop bh.mode
      cases hr : r.1 with
      | none =>
          refine ⟨bh, ?_, fun a => Option.not_isSome_iff_eq_none.mp fun ha => ?_⟩
          · simp [destroyLoop, hget, hr]
          · have hmem := Heap.mem_live.mpr ha
            rw [hfinds.none hr] at hmem
            exact Finset.notMem_empty a hmem
      | some a =>
          obtain ⟨n, hn⟩ := Heap.exists_of_mem_live (hfinds.mem a hr)
          obtain ⟨bh₁, hdestroy, h₁, -, hbag⟩ :=
            binomialTreeNodeDestroy_spec h hn fun _ hzero => absurd rfl hzero
          have hcard := congrArg Multiset.card hbag
          rw [Multiset.card_cons] at hcard
          obtain ⟨bh', hrun, hnone⟩ := ih bh₁ h₁ (by omega)
          refine ⟨bh', ?_, hnone⟩
          simp [destroyLoop, hget, hr, hdestroy, hrun]

theorem binheapDestroy_spec (h : Consistent c bh) :
    ∃ bh', binheapDestroy c.cmp bh = some bh' ∧ ∀ a, bh'.nodes a = none := by
  refine destroyLoop_spec _ bh h ?_
  rw [contents, Heap.card_bag]
  exact Nat.lt_succ_of_le bh.nodes.card_live_le_brk

end BinHeap

namespace PQueue

open BinHeap (Consistent)

/-! ## The queue with a callback -/

section Code

variable (cmp : K → K → ℤ)

/-- `pqueue_drop_items`, with the values that it passes to the callback. -/
def dropItems : ℕ → PQueue K V → Option (PQueue K V × List V)
  | 0, pq => some (pq, [])
  | numItems + 1, pq =>
      if BinHeap.binheapCount pq.heap = 0 then
        some (pq, [])
      else do
        let r ← deleteWorst cmp pq
        let rest ← dropItems numItems { pq with heap := r.1 }
        some (rest.1, (r.2.2.map PqueueItem.value).toList ++ rest.2)

/-- The operations, where a pull may ask for the value. -/
inductive OwnerOp (K V : Type) where
  | insert (prio : K) (value : V)
  | pullHighest (wantsValue : Bool)
  | pullLowest (wantsValue : Bool)

/-- The operation without the request. -/
def OwnerOp.call : OwnerOp K V → PqueueOp K V
  | .insert prio value => .insert prio value
  | .pullHighest _ => .pullHighest
  | .pullLowest _ => .pullLowest

/-- What an operation returns, and the values it passes to the callback. -/
structure OwnerAnswer (K V : Type) where
  rc : ℤ
  prio : Option K
  value : Option V
  freed : List V
deriving DecidableEq, Repr

/-- The end of a pull: the value goes to the caller who asked for it, else to the callback. -/
def pulled (wantsValue : Bool) (o : ℤ × Option (K × V)) : OwnerAnswer K V :=
  if wantsValue then ⟨o.1, o.2.map Prod.fst, o.2.map Prod.snd, []⟩
  else ⟨o.1, o.2.map Prod.fst, none, (o.2.map Prod.snd).toList⟩

/-- Perform an operation on a queue with a callback. -/
def ownerStep (pq : PQueue K V) : OwnerOp K V → Option (PQueue K V × OwnerAnswer K V)
  | .insert prio value => do
      let r ← BinHeap.binheapInsert cmp pq.heap prio { value := value, prio := prio }
      if pq.maxSize < BinHeap.binheapCount r.1 then do
        let d ← dropItems cmp (BinHeap.binheapCount r.1 - pq.maxSize).toNat
          { pq with heap := r.1 }
        some (d.1, ⟨r.2, none, none, d.2⟩)
      else
        some ({ pq with heap := r.1 }, ⟨r.2, none, none, []⟩)
  | .pullHighest wantsValue => do
      let r ← pqueuePullHighest cmp pq
      some (r.1, pulled wantsValue r.2)
  | .pullLowest wantsValue => do
      let r ← pqueuePullLowest cmp pq
      some (r.1, pulled wantsValue r.2)

/-- `pqueue_destroy`: what is left of the heap, and the values passed to the callback. -/
def pqueueDestroy (pq : PQueue K V) :
    Option (BinHeap K (PqueueItem K V) × List V) := do
  let d ← dropItems cmp (BinHeap.binheapCount pq.heap).toNat pq
  let heap ← BinHeap.binheapDestroy cmp d.1.heap
  some (heap, d.2)

end Code

variable {c : Comparator K} {cmp : K → K → ℤ} {pq : PQueue K V}

/-! The callback does not change what the operations do. -/

theorem dropItems_fst (cmp : K → K → ℤ) (numItems : ℕ) : ∀ pq : PQueue K V,
    (dropItems cmp numItems pq).map Prod.fst = pqueueDropItems cmp numItems pq := by
  induction numItems with
  | zero => exact fun _ => rfl
  | succ numItems ih =>
      intro pq
      rw [dropItems, pqueueDropItems]
      split
      · rfl
      · cases deleteWorst cmp pq with
        | none => rfl
        | some r =>
            simp only [Option.bind_eq_bind, Option.bind_some]
            rw [← ih]
            cases dropItems cmp numItems { pq with heap := r.1 } <;> rfl

theorem ownerStep_call (pq : PQueue K V) (op : OwnerOp K V) :
    (ownerStep cmp pq op).map (fun r => (r.1, r.2.rc)) =
      (stepOp cmp pq op.call).map fun r => (r.1, r.2.1) := by
  have hrc : ∀ (wantsValue : Bool) (o : ℤ × Option (K × V)), (pulled wantsValue o).rc = o.1 := by
    intro wantsValue o
    cases wantsValue <;> rfl
  cases op with
  | insert prio value =>
      simp only [ownerStep, OwnerOp.call, stepOp, pqueueInsert]
      cases BinHeap.binheapInsert cmp pq.heap prio { value := value, prio := prio } with
      | none => rfl
      | some r =>
          simp only [Option.bind_eq_bind, Option.bind_some]
          split
          · rw [← dropItems_fst]
            cases dropItems cmp _ { pq with heap := r.1 } <;> rfl
          · rfl
  | pullHighest wantsValue =>
      simp only [ownerStep, OwnerOp.call, stepOp]
      cases pqueuePullHighest cmp pq with
      | none => rfl
      | some r => simp [hrc]
  | pullLowest wantsValue =>
      simp only [ownerStep, OwnerOp.call, stepOp]
      cases pqueuePullLowest cmp pq with
      | none => rfl
      | some r => simp [hrc]

/-! ## The calls -/

/-- The values in the items of the heap. -/
def held (pq : PQueue K V) : Multiset V := (BinHeap.contents pq.heap).map fun i => i.2.value

/-- A value that is inserted goes into the queue; the values that were pulled for the caller
or passed to the callback are taken out. -/
def valueHoldings : Holdings (PQueue K V) (OwnerOp K V) (OwnerAnswer K V) V where
  held := held
  brought
    | .insert _ value => {value}
    | _ => 0
  taken _ o := o.value.toList + o.freed

/-- The heap is consistent, and there are not too many items. -/
def Owned (c : Comparator K) (pq : PQueue K V) : Prop :=
  Consistent c pq.heap ∧ pq.heap.count ≤ pq.maxSize

/-- A deletion at either end takes one item, if there is any. -/
theorem deleteExtremum_takes (h : Consistent c pq.heap) (side : BinheapMode) :
    ∃ heap o o', BinHeap.deleteExtremum c.cmp pq.heap side = some (heap, o) ∧
      handOut o.1 o.2 = some o' ∧ Consistent c heap ∧
      heap.count = pq.heap.count - (if pq.heap.count = 0 then 0 else 1) ∧
      o'.2.map Prod.snd = o.2.map PqueueItem.value ∧
      held { pq with heap := heap } + (o.2.map PqueueItem.value).toList = held pq := by
  obtain ⟨heap, o, hrun, h', -, hcases⟩ := BinHeap.deleteExtremum_spec h side
  have hcount := h.card_contents
  have hcount' := h'.card_contents
  rcases hcases with ⟨rfl, hzero, hzero'⟩ | ⟨i, -, rfl, hbag⟩
  · rw [hzero, Multiset.card_zero, Nat.cast_zero] at hcount
    rw [hzero', Multiset.card_zero, Nat.cast_zero] at hcount'
    refine ⟨heap, _, (-1, none), hrun, rfl, h', ?_, rfl, ?_⟩
    · rw [if_pos hcount, hcount', hcount]
      rfl
    · show (BinHeap.contents heap).map _ + 0 = (BinHeap.contents pq.heap).map _
      rw [hzero, hzero', add_zero]
  · rw [hbag, Multiset.card_cons] at hcount
    refine ⟨heap, _, (0, some (i.2.prio, i.2.value)), hrun, rfl, h', ?_, rfl, ?_⟩
    · rw [if_neg (by omega), hcount', hcount]
      omega
    · show (BinHeap.contents heap).map _ + {i.2.value} = (BinHeap.contents pq.heap).map _
      rw [hbag, Multiset.map_cons, add_comm]
      rfl

/-- Dropping takes as many items as it is told to, and passes each value to the callback. -/
theorem dropItems_spec (numItems : ℕ) : ∀ pq : PQueue K V, Consistent c pq.heap →
    (numItems : ℤ) ≤ pq.heap.count → ∃ pq' freed, dropItems c.cmp numItems pq = some (pq', freed) ∧
      Consistent c pq'.heap ∧ pq'.maxSize = pq.maxSize ∧
      pq'.heap.count = pq.heap.count - numItems ∧ held pq' + freed = held pq := by
  induction numItems with
  | zero => exact fun pq h _ => ⟨pq, [], rfl, h, rfl, (sub_zero _).symm, add_zero _⟩
  | succ numItems ih =>
      intro pq h hle
      have hne : pq.heap.count ≠ 0 := by omega
      obtain ⟨heap, o, o', hrun, -, h', hcount, -, hheld⟩ :=
        deleteExtremum_takes h (worstSide pq.mode)
      rw [if_neg hne] at hcount
      obtain ⟨pq', freed, hdrop, h'', hmax, hcount', hheld'⟩ := ih { pq with heap := heap } h' (by
        show (numItems : ℤ) ≤ heap.count
        omega)
      refine ⟨pq', (o.2.map PqueueItem.value).toList ++ freed, ?_, h'', hmax, ?_, ?_⟩
      · simp [dropItems, BinHeap.binheapCount, hne, deleteWorst_eq, hrun, hdrop]
      · have hcount'' : pq'.heap.count = heap.count - numItems := hcount'
        omega
      · rw [← hheld, ← hheld', ← Multiset.coe_add, add_assoc, add_comm (freed : Multiset V)]

theorem pulled_taken (wantsValue : Bool) (o : ℤ × Option (K × V)) :
    ((pulled wantsValue o).value.toList : Multiset V) + (pulled wantsValue o).freed =
      (o.2.map Prod.snd).toList := by
  cases wantsValue with
  | false => exact zero_add _
  | true => exact add_zero _

/-- Every call balances, and keeps the queue within its bound. -/
theorem ownerStep_balances (pq : PQueue K V) (op : OwnerOp K V) (h : Owned c pq) :
    ∃ pq' o, ownerStep c.cmp pq op = some (pq', o) ∧
      (Owned c pq' ∧ pq'.maxSize = pq.maxSize) ∧ valueHoldings.Balances pq op pq' o := by
  obtain ⟨h, hle⟩ := h
  have hpull : ∀ (side : BinheapMode) (wantsValue : Bool), ∃ heap o o',
      BinHeap.deleteExtremum c.cmp pq.heap side = some (heap, o) ∧ handOut o.1 o.2 = some o' ∧
      Owned c { pq with heap := heap } ∧
      held { pq with heap := heap } + ((pulled wantsValue o').value.toList +
        (pulled wantsValue o').freed : Multiset V) = held pq + 0 := by
    intro side wantsValue
    obtain ⟨heap, o, o', hrun, hout, h', hcount, hvalue, hheld⟩ := deleteExtremum_takes h side
    refine ⟨heap, o, o', hrun, hout, ⟨h', ?_⟩, ?_⟩
    · show heap.count ≤ (pq.maxSize : ℤ)
      split at hcount <;> omega
    · rw [pulled_taken, hvalue, hheld, add_zero]
  cases op with
  | insert prio value =>
      obtain ⟨heap, hins, h', -, hbag⟩ :=
        BinHeap.binheapInsert_spec h prio { value := value, prio := prio }
      have hheld : held { pq with heap := heap } = held pq + {value} := by
        show (BinHeap.contents heap).map _ = (BinHeap.contents pq.heap).map _ + {value}
        rw [hbag, Multiset.map_cons, add_comm]
        rfl
      by_cases hover : (pq.maxSize : ℤ) < heap.count
      · obtain ⟨pq', freed, hdrop, h'', hmax, hcount, hbal⟩ :=
          dropItems_spec (heap.count - pq.maxSize).toNat { pq with heap := heap } h' (by
            show _ ≤ heap.count
            omega)
        have hcount' : pq'.heap.count = heap.count - (heap.count - pq.maxSize).toNat := hcount
        have hmax' : pq'.maxSize = pq.maxSize := hmax
        refine ⟨pq', ⟨0, none, none, freed⟩, ?_, ⟨⟨h'', ?_⟩, hmax'⟩, ?_⟩
        · simp only [ownerStep, hins, BinHeap.binheapCount, Option.bind_eq_bind, Option.bind_some,
            if_pos hover, hdrop]
        · rw [hmax']
          omega
        · show held pq' + (0 + (freed : Multiset V)) = held pq + {value}
          rw [zero_add, hbal, hheld]
      · refine ⟨{ pq with heap := heap }, ⟨0, none, none, []⟩, ?_,
          ⟨⟨h', Int.not_lt.mp hover⟩, rfl⟩, ?_⟩
        · simp [ownerStep, hins, BinHeap.binheapCount, hover]
        · show held { pq with heap := heap } + (0 + 0) = held pq + {value}
          rw [add_zero, add_zero, hheld]
  | pullHighest wantsValue =>
      obtain ⟨heap, o, o', hrun, hout, howned, hbal⟩ := hpull (bestSide pq.mode) wantsValue
      refine ⟨{ pq with heap := heap }, pulled wantsValue o', ?_, ⟨howned, rfl⟩, hbal⟩
      simp [ownerStep, pqueuePullHighest, deleteBest_eq, hrun, hout]
  | pullLowest wantsValue =>
      obtain ⟨heap, o, o', hrun, hout, howned, hbal⟩ := hpull (worstSide pq.mode) wantsValue
      refine ⟨{ pq with heap := heap }, pulled wantsValue o', ?_, ⟨howned, rfl⟩, hbal⟩
      simp [ownerStep, pqueuePullLowest, deleteWorst_eq, hrun, hout]

/-! ## The end -/

theorem pqueueDestroy_spec (h : Consistent c pq.heap) :
    ∃ heap freed, pqueueDestroy c.cmp pq = some (heap, freed) ∧ (∀ a, heap.nodes a = none) ∧
      (freed : Multiset V) = held pq := by
  have hcount := h.card_contents
  obtain ⟨pq', freed, hdrop, h', -, hcount', hheld⟩ :=
    dropItems_spec pq.heap.count.toNat pq h (by omega)
  obtain ⟨heap, hdestroy, hnone⟩ := BinHeap.binheapDestroy_spec h'
  refine ⟨heap, freed, ?_, hnone, ?_⟩
  · simp [pqueueDestroy, BinHeap.binheapCount, hdrop, hdestroy]
  · have hempty : BinHeap.contents pq'.heap = 0 := by
      have := h'.card_contents
      exact Multiset.card_eq_zero.mp (by omega)
    rw [← hheld, held, hempty, Multiset.map_zero, zero_add]

/-- Every run of insertions and pulls at both ends, in either mode and with any bound, keeps
the queue within its bound.  When it ends with `pqueue_destroy`, every value that was inserted
has been handed out or passed to the callback exactly once, and no node is left. -/
theorem pqueue_values_leave_once (mode : PqueueMode) (size : ℕ) (ops : List (OwnerOp Prio V)) :
    ∃ pq os heap freed,
      runSteps (ownerStep prioComparator.cmp) (pqueueCreate mode size) ops = some (pq, os) ∧
      pqueueCount pq ≤ size ∧ pqueueDestroy prioComparator.cmp pq = some (heap, freed) ∧
      (∀ a, heap.nodes a = none) ∧
      (freed : Multiset V) + valueHoldings.allTaken ops os = valueHoldings.allBrought ops := by
  have hstep : ∀ (pq : PQueue Prio V) (op : OwnerOp Prio V),
      (Owned prioComparator pq ∧ pq.maxSize = size) → True →
      ∃ pq' o, ownerStep prioComparator.cmp pq op = some (pq', o) ∧
        (Owned prioComparator pq' ∧ pq'.maxSize = size) ∧
        valueHoldings.Balances pq op pq' o := by
    rintro pq op ⟨h, rfl⟩ -
    exact ownerStep_balances pq op h
  have hcreate := Wf.create (V := V) prioComparator mode size
  obtain ⟨pq, os, hrun, ⟨⟨h, hle⟩, hmax⟩, hbal⟩ := valueHoldings.run_balances hstep ops
    (pqueueCreate mode size) ⟨⟨hcreate.heap, hcreate.bounded⟩, rfl⟩
    (stepsMeet_of_forall (fun _ _ => trivial) ops _)
  obtain ⟨heap, freed, hdestroy, hnone, hfreed⟩ := pqueueDestroy_spec h
  refine ⟨pq, os, heap, freed, hrun, hmax ▸ hle, hdestroy, hnone, ?_⟩
  have hempty : valueHoldings.held (pqueueCreate mode size : PQueue Prio V) = 0 := rfl
  rw [hfreed, ← zero_add (valueHoldings.allBrought ops), ← hempty]
  exact hbal

end PQueue
end LibHL
