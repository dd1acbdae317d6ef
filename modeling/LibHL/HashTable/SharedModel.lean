import LibHL.HashTable.Model
import LibHL.Support.Atomic

/-!
# The hash table of `hashtable.c`, with threads

The functions of `hashtable.c` as programs of atomic steps.  An atomic builtin, a lock
and an unlock are one step each.  Whether an allocation succeeds, and what
`sched_yield` returns, is read off an oracle in the state.  The status word is a
number without an upper bound: it takes `2 ^ 32 - 3` threads in their section at once
to exhaust the word of the source.

Three components of the state only record what the threads do: the section that each
thread is in, the lookups in the array of buckets with the hash they are for, and
whether the array has been replaced while old buckets are still being emptied.
-/

namespace LibHL

/-- The sections that the status word guards. -/
inductive Section where
  | read
  | write
  | grow
  | clear
deriving DecidableEq, Repr

/-- `ht_items_list_t` with its lock, which knows the thread that holds it. -/
structure SharedList (ι : Type) where
  head : List HtItem
  index : ℕ
  holder : Option ι
deriving DecidableEq

/-- `hashtable_t`, shared by threads. -/
structure SharedTable (ι : Type) where
  size : ℕ
  maxSize : ℕ
  count : ℕ
  status : ℕ
  seed : UInt32
  lists : Heap (SharedList ι)
  arrays : Heap (List (Option Addr))
  items : Addr
  iteratorList : List Addr
  iteratorLock : Option ι
  freeItemCb : Bool
  released : List (Option Data)
  oracle : ℕ → Bool
  sections : ι → Option Section
  lookups : List (UInt32 × ℕ)
  walking : Bool

namespace SharedTable

open HashTable

/-- `HT_STATUS_IDLE`. -/
def htStatusIdle : ℕ := 3

/-- `HT_STATUS_READ`. -/
def htStatusRead : ℕ := 4

/-- The value of the status word for a section. -/
def htStatus : Section → ℕ
  | .clear => 0
  | .write => 1
  | .grow => 2
  | .read => htStatusRead

variable {ι : Type} [DecidableEq ι]

/-- `ht_create`. -/
def htCreate (initialSize maxSize : ℕ) (seed : UInt32) (cb : Bool) (oracle : ℕ → Bool) :
    SharedTable ι :=
  let size := if htSizeMin < initialSize then initialSize else htSizeMin
  let r := Heap.empty.alloc (List.replicate size none)
  { size := size
    maxSize := maxSize
    count := 0
    status := htStatusIdle
    seed := seed
    lists := Heap.empty
    arrays := r.1
    items := r.2
    iteratorList := []
    iteratorLock := none
    freeItemCb := cb
    released := []
    oracle := oracle
    sections := fun _ => none
    lookups := []
    walking := false }

/-! ## Steps -/

/-- Read from the table. -/
def get {β : Type} (f : SharedTable ι → β) : Prog (SharedTable ι) β :=
  .atomic fun t => some (t, f t)

/-- Change the table. -/
def modify (f : SharedTable ι → SharedTable ι) : Prog (SharedTable ι) Unit :=
  .atomic fun t => some (f t, ())

/-- The next answer of the oracle. -/
def choose : Prog (SharedTable ι) Bool :=
  .atomic fun t => some ({ t with oracle := fun n => t.oracle (n + 1) }, t.oracle 0)

/-- `ATOMIC_CAS_RETURN(table->status, old, new)`; a success takes thread `i` into a
section or out of it. -/
def casStatus (i : ι) (old new : ℕ) (sec : Option Section) : Prog (SharedTable ι) ℕ :=
  .atomic fun t =>
    if t.status = old then
      some ({ t with status := new, sections := Function.update t.sections i sec }, t.status)
    else
      some (t, t.status)

/-- `ATOMIC_SET`. -/
def atomicSet {β : Type} (read : Prog (SharedTable ι) β) (cas : β → Prog (SharedTable ι) Bool) :
    ℕ → Prog (SharedTable ι) Unit
  | 0 => .stop
  | n + 1 => do
      let old ← read
      if ← cas old then pure () else atomicSet read cas n

/-- Read an element of an array of buckets. -/
def readSlot (array index : ℕ) : Prog (SharedTable ι) (Option Addr) :=
  .atomic fun t => (t.arrays array).bind fun a => a[index]?.map fun list => (t, list)

/-- `table->items[index]`, read for a hash. -/
def lookup (hash : UInt32) (index : ℕ) : Prog (SharedTable ι) (Option Addr) :=
  .atomic fun t => (t.arrays t.items).bind fun a => a[index]?.map fun list =>
    ({ t with lookups := t.lookups ++ [(hash, index)] }, list)

/-- `ATOMIC_CAS` on an element of an array of buckets. -/
def casSlot (array index : ℕ) (old new : Option Addr) : Prog (SharedTable ι) Bool :=
  .atomic fun t => (t.arrays array).bind fun a => a[index]?.map fun list =>
    if list = old then ({ t with arrays := t.arrays.put array (a.set index new) }, true)
    else (t, false)

/-- `table->items[index] = list`. -/
def writeItem (index : ℕ) (list : Option Addr) : Prog (SharedTable ι) Unit :=
  .atomic fun t => (t.arrays t.items).bind fun a => a[index]?.map fun _ =>
    ({ t with arrays := t.arrays.put t.items (a.set index list) }, ())

/-- Change a bucket. -/
def modifyList (list : Addr) (f : SharedList ι → SharedList ι) : Prog (SharedTable ι) Unit :=
  .atomic fun t => (t.lists list).map fun l => ({ t with lists := t.lists.put list (f l) }, ())

/-- Read from a bucket. -/
def readList {β : Type} (list : Addr) (f : SharedList ι → β) : Prog (SharedTable ι) β :=
  .atomic fun t => (t.lists list).map fun l => (t, f l)

/-- `malloc` of a bucket, with `TAILQ_INIT` and `SPIN_INIT`, and `SPIN_LOCK` if there is a
holder. -/
def allocList (holder : Option ι) : Prog (SharedTable ι) Addr :=
  .atomic fun t =>
    let r := t.lists.alloc { head := [], index := 0, holder := holder }
    some ({ t with lists := r.1 }, r.2)

/-- `SPIN_UNLOCK`, `SPIN_DESTROY` and `free`. -/
def destroyList (list : Addr) : Prog (SharedTable ι) Unit :=
  .atomic fun t => (t.lists.free list).map fun lists => ({ t with lists := lists }, ())

/-- `SPIN_LOCK`, which waits while the lock is held. -/
def spinLock (i : ι) (list : Addr) : Prog (SharedTable ι) Unit :=
  .atomic fun t => (t.lists list).bind fun l =>
    if l.holder = none then
      some ({ t with lists := t.lists.put list { l with holder := some i } }, ())
    else
      none

/-- `SPIN_UNLOCK`. -/
def spinUnlock (list : Addr) : Prog (SharedTable ι) Unit :=
  modifyList list fun l => { l with holder := none }

/-- `MUTEX_LOCK(table->iterator_lock)`, which waits while the lock is held. -/
def mutexLock (i : ι) : Prog (SharedTable ι) Unit :=
  .atomic fun t =>
    if t.iteratorLock = none then some ({ t with iteratorLock := some i }, ()) else none

/-- `MUTEX_UNLOCK(table->iterator_lock)`. -/
def mutexUnlock : Prog (SharedTable ι) Unit := modify fun t => { t with iteratorLock := none }

/-- `ht_hash_one_at_a_time`. -/
def hashOf (key : Key) : Prog (SharedTable ι) UInt32 := get fun t => htHashOneAtATime t.seed key

/-! ## Readers -/

section Programs

variable (bound : ℕ) (i : ι)

/-- The first loop of `ht_get_list`. -/
def firstReader : ℕ → Prog (SharedTable ι) ℕ
  | 0 => .stop
  | n + 1 => do
      let status ← casStatus i htStatusIdle htStatusRead (some .read)
      if status < htStatusIdle then
        if ← choose then firstReader n else pure status
      else
        pure status

/-- The second loop of `ht_get_list`. -/
def joinReaders : ℕ → ℕ → Prog (SharedTable ι) ℕ
  | 0, _ => .stop
  | n + 1, status => do
      if status = htStatusIdle then
        pure status
      else
        let joined ← joinOnce status
        if joined then
          pure status
        else do
          let status ← casStatus i htStatusIdle htStatusRead (some .read)
          if status < htStatusIdle then
            let _ ← choose
          joinReaders n status
where
  /-- The second half of the loop's condition. -/
  joinOnce (status : ℕ) : Prog (SharedTable ι) Bool := do
    if htStatusRead ≤ status then
      let old ← casStatus i status (status + 1) (some .read)
      pure (old = status)
    else
      pure false

/-- The last loop of `ht_get_list`. -/
def leaveReaders : ℕ → ℕ → Prog (SharedTable ι) Unit
  | 0, _ => .stop
  | n + 1, status => do
      if (← casStatus i status (status - 1) none) = status then
        pure ()
      else do
        let status ← casStatus i htStatusRead htStatusIdle none
        if htStatusRead < status then leaveReaders n status else pure ()

/-- `ht_get_list`. -/
def htGetList (hash : UInt32) : Prog (SharedTable ι) (Option Addr) := do
  let size ← get SharedTable.size
  let index := hash.toNat % size
  let status ← firstReader i bound
  let status ← joinReaders i bound status
  let list ← lookup hash index
  if let some l := list then
    spinLock i l
  leaveReaders i bound (status + 1)
  pure list

/-! ## Writers -/

/-- Wait for the table to be idle. -/
def acquire (sec : Section) : ℕ → Prog (SharedTable ι) Unit
  | 0 => .stop
  | n + 1 => do
      if (← casStatus i htStatusIdle (htStatus sec) (some sec)) = htStatusIdle then
        pure ()
      else do
        let _ ← choose
        acquire sec n

/-- `ATOMIC_CAS(table->status, .., HT_STATUS_IDLE)`, without a look at the result. -/
def release (sec : Section) : Prog (SharedTable ι) Unit := do
  let _ ← casStatus i (htStatus sec) htStatusIdle none
  pure ()

/-- `ht_set_list`. -/
def htSetList (hash : UInt32) : Prog (SharedTable ι) (Option Addr) := do
  if ← choose then
    let list ← allocList (some i)
    let size ← get SharedTable.size
    modifyList list fun l => { l with index := hash.toNat % size }
    acquire i .write bound
    let size ← get SharedTable.size
    let index := hash.toNat % size
    modifyList list fun l => { l with index := index }
    match ← readSlot (← get SharedTable.items) index with
    | some _ => do
        destroyList list
        match ← readSlot (← get SharedTable.items) index with
        | none => .stop
        | some list => do
            spinLock i list
            release i .write
            pure (some list)
    | none => do
        writeItem index (some list)
        release i .write
        mutexLock i
        modify fun t => { t with iteratorList := t.iteratorList ++ [list] }
        mutexUnlock
        pure (some list)
  else
    pure none

/-! ## Growth -/

/-- The bucket of the new array for an item; the second result is the new iterator list. -/
def newBucket (array index : ℕ) (registered : List Addr) :
    Prog (SharedTable ι) (Addr × List Addr) := do
  match ← readSlot array index with
  | some list => pure (list, registered)
  | none => do
      if ← choose then
        let list ← allocList none
        atomicSet (readSlot array index) (fun old => casSlot array index old (some list)) bound
        modifyList list fun l => { l with index := index }
        pure (list, registered ++ [list])
      else
        .stop

/-- `TAILQ_REMOVE` from one bucket and `TAILQ_INSERT_TAIL` into another one. -/
def moveItem (source target : Addr) (item : HtItem) : Prog (SharedTable ι) Unit :=
  .atomic fun t => (t.lists source).bind fun l =>
    let lists := t.lists.put source { l with head := l.head.tail }
    (lists target).map fun l' =>
      ({ t with lists := lists.put target { l' with head := l'.head ++ [item] } }, ())

/-- The inner loop of `ht_grow_table`. -/
def moveItems (list : Addr) (array newSize : ℕ) :
    ℕ → List Addr → Prog (SharedTable ι) (List Addr)
  | 0, _ => .stop
  | n + 1, registered => do
      match ← readList list fun l => l.head.head? with
      | none => pure registered
      | some item => do
          let (target, registered) ←
            newBucket bound array (item.hash.toNat % newSize) registered
          moveItem list target item
          moveItems list array newSize n registered

/-- The outer loop of `ht_grow_table`. -/
def moveLists (oldItems array newSize : ℕ) :
    List Addr → List Addr → Prog (SharedTable ι) (List Addr)
  | [], registered => pure registered
  | list :: lists, registered => do
      let index ← readList list SharedList.index
      atomicSet (readSlot oldItems index) (fun old => casSlot oldItems index old none) bound
      spinLock i list
      let registered ← moveItems bound list array newSize bound registered
      modify fun t => { t with iteratorList := t.iteratorList.erase list }
      destroyList list
      moveLists oldItems array newSize lists registered

/-- The new size. -/
def grownSize (size maxSize : ℕ) : ℕ :=
  let newSize := size <<< 1 % 2 ^ 64
  if maxSize ≠ 0 ∧ maxSize < newSize then maxSize else newSize

/-- `calloc` of an array of buckets. -/
def allocArray (size : ℕ) : Prog (SharedTable ι) Addr :=
  .atomic fun t =>
    let r := t.arrays.alloc (List.replicate size none)
    some ({ t with arrays := r.1 }, r.2)

/-- `old_items = table->items; table->items = items_list`. -/
def swapItems (array : Addr) : Prog (SharedTable ι) Addr :=
  .atomic fun t => some ({ t with items := array, walking := true }, t.items)

/-- `ATOMIC_CAS(table->size, old, new)`. -/
def casSize (old new : ℕ) : Prog (SharedTable ι) Bool :=
  .atomic fun t => if t.size = old then some ({ t with size := new }, true) else some (t, false)

/-- The part of `ht_grow_table` that holds the lock of the iterator list. -/
def rehash (array newSize : ℕ) : Prog (SharedTable ι) Addr := do
  mutexLock i
  let oldItems ← swapItems array
  atomicSet (get SharedTable.size) (fun old => casSize old newSize) bound
  let registered ← moveLists bound i oldItems array newSize (← get iteratorList) []
  modify fun t => { t with iteratorList := registered, walking := false }
  mutexUnlock
  pure oldItems

/-- `ht_grow_table` once it has the status. -/
def growSection : Prog (SharedTable ι) Unit := do
  let maxSize ← get SharedTable.maxSize
  let size ← get SharedTable.size
  if maxSize ≠ 0 ∧ maxSize ≤ size then
    release i .grow
  else if ← choose then
    let size ← get SharedTable.size
    if ← choose then
      let array ← allocArray (grownSize size maxSize)
      let oldItems ← rehash bound i array (grownSize size maxSize)
      release i .grow
      Prog.atomic fun t => (t.arrays.free oldItems).map fun arrays => ({ t with arrays := arrays }, ())
    else
      release i .grow
  else
    release i .grow

/-- `ht_grow_table`. -/
def htGrowTable : Prog (SharedTable ι) Unit := do
  if (← casStatus i htStatusIdle (htStatus .grow) (some .grow)) = htStatusIdle then
    growSection bound i
  else
    pure ()

/-! ## Clearing -/

/-- Call the free callback, if one is set. -/
def callFreeItemCb (data : Option Data) : Prog (SharedTable ι) Unit :=
  modify fun t => if t.freeItemCb then { t with released := t.released ++ [data] } else t

/-- The inner loop of `ht_clear`. -/
def clearItems (list : Addr) : List HtItem → Prog (SharedTable ι) Unit
  | [] => pure ()
  | item :: items => do
      modifyList list fun l => { l with head := l.head.tail }
      callFreeItemCb item.data
      modify fun t => { t with count := t.count - 1 }
      clearItems list items

/-- The outer loop of `ht_clear`. -/
def clearLists : List Addr → Prog (SharedTable ι) Unit
  | [] => pure ()
  | list :: lists => do
      spinLock i list
      clearItems list (← readList list SharedList.head)
      writeItem (← readList list SharedList.index) none
      modify fun t => { t with iteratorList := t.iteratorList.erase list }
      destroyList list
      clearLists lists

/-- `ht_clear`. -/
def htClear : Prog (SharedTable ι) Unit := do
  acquire i .clear bound
  mutexLock i
  clearLists i (← get iteratorList)
  mutexUnlock
  release i .clear

/-! ## Setting and getting -/

/-- The allocations for a new item, which include one for a long key. -/
def allocItem (key : Key) : Prog (SharedTable ι) Bool := do
  if ← choose then
    if 32 < key.length then choose else pure true
  else
    pure false

/-- The end of `ht_set_internal`: give back the bucket, grow if needed, and release the
previous value. -/
def finishSet (list : Addr) (prev : Option Data) : Prog (SharedTable ι) ℤ := do
  spinUnlock list
  let size ← get SharedTable.size
  let count ← get SharedTable.count
  let maxSize ← get SharedTable.maxSize
  if size + size / 3 < count ∧ (maxSize = 0 ∨ size < maxSize) then
    htGrowTable bound i
  if prev.isSome then
    callFreeItemCb prev
  pure 0

/-- The part of `ht_set_internal` under the lock of the bucket. -/
def setInList (list : Addr) (hash : UInt32) (key : Key) (data : Data) (dlen : ℕ) :
    Prog (SharedTable ι) ℤ := do
  let found ← readList list fun l => l.head.find? fun it => htKeyEquals it.key key
  match found.bind HtItem.data with
  | none => do
      if ← allocItem key then
        modifyList list fun l => { l with
          head := l.head ++ [{ hash := hash, key := key, data := some data, dlen := dlen }] }
        modify fun t => { t with count := t.count + 1 }
        finishSet bound i list none
      else do
        spinUnlock list
        pure (-1)
  | some prev => do
      modifyList list fun l => { l with
        head := updateItem key (fun it => { it with data := some data, dlen := dlen }) l.head }
      finishSet bound i list (some prev)

/-- The bucket for a hash, created if there is none. -/
def findList (hash : UInt32) : Prog (SharedTable ι) (Option Addr) := do
  match ← htGetList bound i hash with
  | some list => pure (some list)
  | none => htSetList bound i hash

/-- `ht_set`. -/
def htSet (key : Key) (data : Data) (dlen : ℕ) : Prog (SharedTable ι) ℤ := do
  if key.length = 0 then
    pure (-1)
  else do
    let hash ← hashOf key
    match ← findList bound i hash with
    | none => pure (-1)
    | some list => setInList bound i list hash key data dlen

/-- `ht_get`. -/
def htGet (key : Key) : Prog (SharedTable ι) (Option Data) := do
  let hash ← hashOf key
  match ← htGetList bound i hash with
  | none => pure none
  | some list => do
      let found ← readList list fun l => l.head.find? fun it => htKeyEquals it.key key
      spinUnlock list
      pure (found.bind HtItem.data)

end Programs
end SharedTable
end LibHL
