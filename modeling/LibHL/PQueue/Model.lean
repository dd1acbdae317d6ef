import LibHL.BinHeap.Model

/-!
# The bounded priority queue of `pqueue.c`

The queue is a binomial heap organised for its best end, together with a bound
on its size.  The source uses `uint64_t` priorities and compares them by
`libhl_cmp_keys_uint64`; the functions are written for any kind of priority.
The lock and the callback that releases dropped values have no influence on the
queue and are left out.
-/

namespace LibHL

/-- `LIBHL_CMP_KEYS_TYPE` at `uint64_t`: the difference wraps around, and its low
32 bits are returned as an `int`. -/
def libhlCmpKeysUint64 (k₁ k₂ : UInt64) : ℤ := (k₁ - k₂).toUInt32.toInt32.toInt

/-- `pqueue_item_t`. -/
structure PqueueItem (K V : Type) where
  value : V
  prio : K

/-- `pqueue_mode_t`. -/
inductive PqueueMode where
  | highest
  | lowest
  deriving DecidableEq

/-- The fields of `pqueue_t` that the operations use. -/
structure PQueue (K V : Type) where
  heap : BinHeap K (PqueueItem K V)
  maxSize : ℕ
  mode : PqueueMode

namespace PQueue

variable {K V : Type} (cmp : K → K → ℤ)

/-- The end the heap is organised for. -/
def bestSide : PqueueMode → BinheapMode
  | .highest => .max
  | .lowest => .min

/-- The other end. -/
def worstSide : PqueueMode → BinheapMode
  | .highest => .min
  | .lowest => .max

/-- `pqueue_create`. -/
def pqueueCreate (mode : PqueueMode) (size : ℕ) : PQueue K V where
  heap := BinHeap.binheapCreate (bestSide mode)
  maxSize := size
  mode := mode

/-- The call that deletes at the best end. -/
def deleteBest (pq : PQueue K V) :
    Option (BinHeap K (PqueueItem K V) × ℤ × Option (PqueueItem K V)) :=
  match pq.mode with
  | .highest => BinHeap.binheapDeleteMaximum cmp pq.heap
  | .lowest => BinHeap.binheapDeleteMinimum cmp pq.heap

/-- The call that deletes at the worst end. -/
def deleteWorst (pq : PQueue K V) :
    Option (BinHeap K (PqueueItem K V) × ℤ × Option (PqueueItem K V)) :=
  match pq.mode with
  | .highest => BinHeap.binheapDeleteMinimum cmp pq.heap
  | .lowest => BinHeap.binheapDeleteMaximum cmp pq.heap

/-- `pqueue_drop_items`. -/
def pqueueDropItems : ℕ → PQueue K V → Option (PQueue K V)
  | 0, pq => some pq
  | numItems + 1, pq =>
      if BinHeap.binheapCount pq.heap = 0 then
        some pq
      else do
        let r ← deleteWorst cmp pq
        pqueueDropItems numItems { pq with heap := r.1 }

/-- `pqueue_insert`. -/
def pqueueInsert (pq : PQueue K V) (prio : K) (value : V) : Option (PQueue K V × ℤ) := do
  let r ← BinHeap.binheapInsert cmp pq.heap prio { value := value, prio := prio }
  if pq.maxSize < BinHeap.binheapCount r.1 then do
    let pq ← pqueueDropItems cmp (BinHeap.binheapCount r.1 - pq.maxSize).toNat
      { pq with heap := r.1 }
    some (pq, r.2)
  else
    some ({ pq with heap := r.1 }, r.2)

/-- What the pulls hand out: the priority and the value, read from the item if
the deletion returned zero. -/
def handOut (rc : ℤ) (item : Option (PqueueItem K V)) : Option (ℤ × Option (K × V)) :=
  if rc = 0 then
    item.map fun i => (rc, some (i.prio, i.value))
  else
    some (rc, none)

/-- `pqueue_pull_highest`. -/
def pqueuePullHighest (pq : PQueue K V) : Option (PQueue K V × ℤ × Option (K × V)) := do
  let r ← deleteBest cmp pq
  let o ← handOut r.2.1 r.2.2
  some ({ pq with heap := r.1 }, o)

/-- `pqueue_pull_lowest`. -/
def pqueuePullLowest (pq : PQueue K V) : Option (PQueue K V × ℤ × Option (K × V)) := do
  let r ← deleteWorst cmp pq
  let o ← handOut r.2.1 r.2.2
  some ({ pq with heap := r.1 }, o)

/-- `pqueue_count`. -/
def pqueueCount (pq : PQueue K V) : ℤ := BinHeap.binheapCount pq.heap

end PQueue
end LibHL
