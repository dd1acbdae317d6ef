import LibHL.Support.Atomic
import LibHL.Support.Heap
import Mathlib.Algebra.Group.Nat.Defs

/-!
# Reference counts

The functions of `refcnt.c` as programs of atomic steps, one for each atomic
builtin.  The cells that hold references to nodes have addresses of a type `A`,
the pointers that nodes carry are of a type `P`, and `E` is the state of the
component that uses the references.

The two ring queues are bounded queues here, with the capacities that
`refcnt_create` gives them; a call to one of them is one step.  `terminated`
records the pointers of the nodes that were put on the free list.
-/

namespace LibHL

/-- `refcnt_node_t`. -/
structure RefcntNode (P : Type) where
  ptr : P
  count : UInt32
  updating : Bool
deriving DecidableEq, Repr

/-- A reference to a node and its mark. -/
structure Ref where
  node : Option Addr
  mark : Bool
deriving DecidableEq, Repr

/-- `refcnt_t`, with the nodes and the cells that refer to them. -/
structure RefCnt (A P E : Type) where
  nodes : Heap (RefcntNode P)
  links : A → Option Ref
  gcThreshold : ℕ
  freeList : List Addr
  nodePool : List Addr
  terminated : List P
  ext : E

namespace RefCnt

variable {A P E : Type} [DecidableEq A]

/-- `REFCNT_MARK_ON`. -/
def markOn (r : Ref) : Ref := { r with mark := true }

/-- `REFCNT_MARK_OFF`. -/
def markOff (r : Ref) : Ref := { r with mark := false }

/-- The reference that is not marked. -/
def refTo (node : Addr) : Ref := ⟨some node, false⟩

/-- The null reference. -/
def null : Ref := ⟨none, false⟩

/-- The size of the ring queue for the free list: one and a half times the threshold, taken
in 32 bits and read as an `int`, and at least `RQUEUE_MIN_SIZE`. -/
def freeListSize (gcThreshold : ℕ) : ℕ :=
  let size := (gcThreshold + gcThreshold / 2) % 2 ^ 32
  if size < 2 ^ 31 ∧ 2 ^ 8 ≤ size then size else 2 ^ 8

/-- The size of the ring queue for unused nodes. -/
def nodePoolSize : ℕ := 2 ^ 16

/-- `refcnt_create`. -/
def refcntCreate (gcThreshold : ℕ) (links : A → Option Ref) (ext : E) : RefCnt A P E where
  nodes := Heap.empty
  links := links
  gcThreshold := gcThreshold
  freeList := []
  nodePool := []
  terminated := []
  ext := ext

/-! ## Atomic builtins -/

/-- `ATOMIC_READ` of a cell. -/
def readLink (a : A) : Prog (RefCnt A P E) Ref :=
  .atomic fun s => (s.links a).map fun r => (s, r)

/-- `ATOMIC_CAS` on a cell. -/
def casLink (a : A) (old new : Ref) : Prog (RefCnt A P E) Bool :=
  .atomic fun s => (s.links a).map fun r =>
    if r = old then ({ s with links := Function.update s.links a (some new) }, true)
    else (s, false)

/-- `ATOMIC_READ` of a field of a node. -/
def readField {β : Type} (node : Addr) (field : RefcntNode P → β) : Prog (RefCnt A P E) β :=
  .atomic fun s => (s.nodes node).map fun nd => (s, field nd)

/-- An atomic update of the count of a node. -/
def updateCount (node : Addr) (f : UInt32 → UInt32) : Prog (RefCnt A P E) Unit :=
  .atomic fun s => (s.nodes node).map fun nd =>
    ({ s with nodes := s.nodes.put node { nd with count := f nd.count } }, ())

/-- `ATOMIC_CAS` on the flag of a node. -/
def casUpdating (node : Addr) (old new : Bool) : Prog (RefCnt A P E) Bool :=
  .atomic fun s => (s.nodes node).map fun nd =>
    if nd.updating = old then
      ({ s with nodes := s.nodes.put node { nd with updating := new } }, true)
    else (s, false)

/-! ## The free list and the node pool -/

/-- The terminate callback and the write to the free list. -/
def terminateNode (node : Addr) : Prog (RefCnt A P E) Unit :=
  .atomic fun s => (s.nodes node).map fun nd =>
    ({ s with
      freeList := if s.freeList.length < freeListSize s.gcThreshold then s.freeList ++ [node]
        else s.freeList
      terminated := s.terminated ++ [nd.ptr] }, ())

/-- The number of writes to the free list less that of reads. -/
def freeCount : Prog (RefCnt A P E) (ℕ × ℕ) :=
  .atomic fun s => some (s, s.freeList.length, s.gcThreshold)

/-- `rqueue_read` from the free list. -/
def readFreeList : Prog (RefCnt A P E) (Option Addr) :=
  .atomic fun s => some ({ s with freeList := s.freeList.tail }, s.freeList.head?)

/-- `rqueue_write` to the node pool, or `free` of the node. -/
def recycleNode (node : Addr) : Prog (RefCnt A P E) Unit :=
  .atomic fun s =>
    if s.nodePool.length < nodePoolSize then
      some ({ s with nodePool := s.nodePool ++ [node] }, ())
    else
      (s.nodes.free node).map fun nodes => ({ s with nodes := nodes }, ())

section Loops

-- `bound` is the number of rounds after which a loop gives up, and `freePtr` the
-- callback `free_node_ptr_cb`.
variable (bound : ℕ) (freePtr : P → RefCnt A P E → Option (RefCnt A P E))

/-- The loop of `gc`. -/
def gcLoop (limit : ℕ) : ℕ → Prog (RefCnt A P E) Unit
  | 0 => .stop
  | n + 1 => do
      let c ← freeCount
      if limit < c.1 then
        match ← readFreeList with
        | none => pure ()
        | some node => do
            let ptr ← readField node RefcntNode.ptr
            Prog.atomic fun s => (freePtr ptr s).map fun s => (s, ())
            recycleNode node
            gcLoop limit n
      else
        pure ()

/-- The test at the end of `release_ref`. -/
def gcIfDue : Prog (RefCnt A P E) Unit := do
  let c ← freeCount
  if c.2 < c.1 then gcLoop freePtr (c.2 / 2) bound else pure ()

/-- `rqueue_destroy` of the node pool, whose callback is `free`; the free list has none. -/
def destroyQueues : Prog (RefCnt A P E) Unit :=
  .atomic fun s => do
    let nodes ← s.nodePool.foldlM (fun nodes node => nodes.free node) s.nodes
    some ({ s with nodes := nodes, freeList := [], nodePool := [] }, ())

/-- `refcnt_destroy`. -/
def refcntDestroy : Prog (RefCnt A P E) Unit := do
  gcLoop freePtr 0 bound
  destroyQueues

/-! ## The interface -/

/-- The end of `deref_link_internal`: take a reference to a node. -/
def derefNode (node : Addr) : Prog (RefCnt A P E) (Option Addr) := do
  if ← readField node RefcntNode.updating then
    if (← readField node RefcntNode.count) = 0 then
      pure none
    else do
      updateCount node (· + 1)
      pure (some node)
  else do
    updateCount node (· + 1)
    pure (some node)

/-- `deref_link_internal`. -/
def derefLinkInternal (a : A) (skipDeleted : Bool) : Prog (RefCnt A P E) (Option Addr) := do
  let r ← readLink a
  if r.mark && skipDeleted then
    pure none
  else
    match r.node with
    | none => pure none
    | some node => derefNode node

/-- `deref_link`. -/
def derefLink (a : A) : Prog (RefCnt A P E) (Option Addr) := derefLinkInternal a true

/-- `deref_link_d`. -/
def derefLinkD (a : A) : Prog (RefCnt A P E) (Option Addr) := derefLinkInternal a false

/-- `retain_ref`. -/
def retainRef (node : Addr) : Prog (RefCnt A P E) (Option Addr) := derefNode node

/-- The part of `release_ref` that holds the flag of the node. -/
def releaseFlagged (node : Addr) : Prog (RefCnt A P E) Unit := do
  if (← readField node RefcntNode.count) = 0 then
    terminateNode node
  else do
    let _ ← casUpdating node true false
    pure ()

/-- `release_ref`. -/
def releaseRef (node : Addr) : Prog (RefCnt A P E) Unit := do
  if 0 < (← readField node RefcntNode.count) then
    updateCount node (· - 1)
  if ← casUpdating node false true then
    releaseFlagged node
  gcIfDue bound freePtr

/-- `release_ref` of a reference that may be null. -/
def releaseOld (r : Ref) : Prog (RefCnt A P E) Unit :=
  match r.node with
  | none => .stop
  | some node => releaseRef bound freePtr node

/-- The loop of `store_ref`. -/
def exchangeLink (a : A) (new : Ref) : ℕ → Prog (RefCnt A P E) Ref
  | 0 => .stop
  | n + 1 => do
      let old ← readLink a
      if ← casLink a old new then pure old else exchangeLink a new n

/-- `store_ref`. -/
def storeRef (a : A) (ref : Option Addr) : Prog (RefCnt A P E) Unit := do
  let old ← exchangeLink a ⟨ref, false⟩ bound
  if let some node := ref then
    let _ ← retainRef node
  if old = null then
    pure ()
  else
    releaseOld bound freePtr old

end Loops

/-- `compare_and_swap_ref`. -/
def compareAndSwapRef (a : A) (old ref : Option Addr) : Prog (RefCnt A P E) Bool := do
  if ← casLink a ⟨old, false⟩ ⟨ref, false⟩ then
    if let some node := ref then
      updateCount node (· + 1)
    if let some node := old then
      updateCount node (· - 1)
    pure true
  else
    pure false

/-- `new_node`. -/
def newNode (ptr : P) : Prog (RefCnt A P E) Addr :=
  .atomic fun s =>
    match s.nodePool with
    | [] =>
        let r := s.nodes.alloc { ptr := ptr, count := 1, updating := false }
        some ({ s with nodes := r.1 }, r.2)
    | node :: pool =>
        (s.nodes node).map fun _ =>
          ({ s with
            nodes := s.nodes.put node { ptr := ptr, count := 1, updating := false }
            nodePool := pool }, node)

/-- `get_node_ptr`. -/
def getNodePtr : Option Addr → Prog (RefCnt A P E) (Option P)
  | none => pure none
  | some node => do
      let ptr ← readField node RefcntNode.ptr
      pure (some ptr)

end RefCnt
end LibHL
