import LibHL.HashTable.Model
import LibHL.Support.Allocations

/-!
# Setting values when memory may run out

The setters of `hashtable.c` once more, with every allocation as a request that may be
refused.  The paths that allocate nothing are those of the model where all is granted, and
are taken from there.
-/

namespace LibHL
namespace HashTable
namespace Scarce

/-! ## Buckets and growth -/

/-- `ht_set_list`; null if there is no memory for the bucket. -/
def htSetList (t : HashTable) (hash : UInt32) : Allocating (Option (HashTable × Addr)) := do
  if ← request then
    let r ← t.htSetList hash
    return some r
  else return none

/-- One round of the inner loop of `ht_grow_table`.  A bucket that is refused is written
through all the same. -/
def moveItem (newSize : ℕ) (b : Buckets) (item : HtItem) : Allocating Buckets := do
  let index := item.hash.toNat % newSize
  match ← (b.items[index]? : Option (Option Addr)) with
  | some list => insertTail b list item
  | none => do
      if ← request then
        let r := newList b index
        insertTail r.1 r.2 item
      else (none : Option Buckets)

/-- One round of the outer loop of `ht_grow_table`. -/
def moveList (newSize : ℕ) (b : Buckets) (list : Addr) : Allocating Buckets := do
  let l ← b.lists list
  let b ← l.head.foldlM (moveItem newSize) b
  let ls ← b.lists.free list
  return { b with lists := ls }

/-- `ht_grow_table`.  Without memory for the iterator list or the array the table does not
grow. -/
def htGrowTable (t : HashTable) : Allocating HashTable :=
  if t.maxSize ≠ 0 ∧ t.maxSize ≤ t.size then return t
  else do
    let newSize := t.grownSize
    if ← request then
      if callocFits newSize then
        if ← request then
          let b ← t.iteratorList.foldlM (moveList newSize)
            { lists := t.lists, items := List.replicate newSize none, iteratorList := [] }
          return { t with toBuckets := b, size := newSize }
        else return t
      else return t
    else return t

/-- Grow the table when the load test asks for it. -/
def growIfNeeded (t : HashTable) : Allocating HashTable :=
  if t.needsGrowth then htGrowTable t else return t

/-! ## Setting values -/

/-- What a setter returns when it fails. -/
def failed : SetResult := { ret := -1, prevData := none, prevLen := none }

/-- The end of `ht_set_internal`. -/
def finishSet (t : HashTable) (prev : Option Data) (plen : ℕ) (prevData prevLen : Bool) :
    Allocating (HashTable × SetResult) := do
  let t ← growIfNeeded t
  let t := if prev.isSome ∧ ¬ prevData then t.callFreeItemCb prev else t
  return (t, {
    ret := 0
    prevData := writeOut prevData prev
    prevLen := writeOut prevLen plen })

/-- The size of the buffer for short keys, `kbuf`. -/
def kbufSize : ℕ := 32

/-- The new item of `ht_set_internal`: the item itself, a buffer for a key that does not fit
into `kbuf`, and a copy of the data.  What was granted is given back if the next one is
refused. -/
def newItem (brk : ℕ) (hash : UInt32) (key : Key) (data : Option Data) (dlen : ℕ) (copy : Bool) :
    Allocating (Option (ℕ × HtItem)) := do
  if ← request then
    if ← requestIf (kbufSize < key.length) then
      if ← requestIf (copy = true ∧ dlen ≠ 0) then
        let (brk, stored) ← newItemData brk data dlen copy
        return some (brk, { hash := hash, key := key, data := stored, dlen := dlen })
      else return none
    else return none
  else return none

/-- The part of `ht_set_internal` under the lock of the bucket. -/
def setInList (t : HashTable) (list : Addr) (hash : UInt32) (key : Key) (data : Option Data)
    (dlen : ℕ) (prevData prevLen copy inx : Bool) : Allocating (HashTable × SetResult) := do
  let l ← t.lists list
  let found := l.head.find? fun it => htKeyEquals it.key key
  let plen := (found.map HtItem.dlen).getD 0
  match found.bind HtItem.data with
  | none => do
      match ← newItem t.brk hash key data dlen copy with
      | none => return (t, failed)
      | some (brk, item) => do
          let b ← insertTail t.toBuckets list item
          finishSet { t with toBuckets := b, count := t.count + 1, brk := brk } none plen
            prevData prevLen
  | some prev =>
      if inx then
        return (t, {
          ret := 1
          prevData := writeOut prevData (some prev)
          prevLen := writeOut prevLen plen })
      else do
        if ← requestIf (copy = true) then
          let (brk, stored) ← updatedItemData t.brk data dlen copy
          let b ← setItems t.toBuckets list
            (updateItem key (fun it => { it with data := stored, dlen := dlen }) l.head)
          finishSet { t with toBuckets := b, brk := brk } (some prev) plen prevData prevLen
        else
          -- the length has been stored before the copy was asked for
          let b ← setItems t.toBuckets list
            (updateItem key (fun it => { it with dlen := dlen }) l.head)
          return ({ t with toBuckets := b }, failed)

/-- `ht_set_internal`. -/
def htSetInternal (t : HashTable) (key : Key) (data : Option Data) (dlen : ℕ)
    (prevData prevLen copy inx : Bool) : Allocating (HashTable × SetResult) :=
  if key.length = 0 then return (t, failed)
  else do
    let hash := htHashOneAtATime t.seed key
    match ← t.htGetList hash with
    | some list => setInList t list hash key data dlen prevData prevLen copy inx
    | none => do
        match ← htSetList t hash with
        | none => return (t, failed)
        | some (t, list) => setInList t list hash key data dlen prevData prevLen copy inx

/-- `ht_set`. -/
def htSet (t : HashTable) (key : Key) (data : Option Data) (dlen : ℕ) :
    Allocating (HashTable × SetResult) :=
  htSetInternal t key data dlen false false false false

/-- `ht_set_if_not_exists`. -/
def htSetIfNotExists (t : HashTable) (key : Key) (data : Option Data) (dlen : ℕ) :
    Allocating (HashTable × SetResult) :=
  htSetInternal t key data dlen false false false true

/-- `ht_get_or_set`. -/
def htGetOrSet (t : HashTable) (key : Key) (data : Option Data) (dlen : ℕ)
    (curData curLen : Bool) : Allocating (HashTable × SetResult) :=
  htSetInternal t key data dlen curData curLen false true

/-- `ht_get_and_set`. -/
def htGetAndSet (t : HashTable) (key : Key) (data : Option Data) (dlen : ℕ)
    (prevData prevLen : Bool) : Allocating (HashTable × SetResult) :=
  htSetInternal t key data dlen prevData prevLen false false

/-- `ht_set_copy`. -/
def htSetCopy (t : HashTable) (key : Key) (data : Option Data) (dlen : ℕ)
    (prevData prevLen : Bool) : Allocating (HashTable × SetResult) :=
  htSetInternal t key data dlen prevData prevLen true false

end Scarce
end HashTable
end LibHL
