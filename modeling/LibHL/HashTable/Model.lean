import LibHL.Support.Heap
import Mathlib.Algebra.Group.Int.Defs
import Mathlib.Algebra.Group.Nat.Defs
import Mathlib.Data.Int.Init

/-!
# The hash table of `hashtable.c`, in a single thread

Buckets are heap cells; the table holds the array of bucket pointers and the
iterator list, which registers the same buckets a second time.  Items of a
bucket form a list in insertion order.

With a single thread the status word is back at idle between any two calls and
every compare-and-swap on it succeeds, so it does not appear here.  An item's
key is the byte string of length `klen`; whether the source keeps it in the
inline buffer or in a separate allocation is not visible.

Allocations succeed, except that `calloc` refuses a request whose byte size
does not fit a `size_t`.  Addresses of copied values come from the table's own
counter.  Calls of the free callback are recorded in order.
-/

namespace LibHL

/-- A byte-string key. -/
abbrev Key := List UInt8

/-- A non-null data pointer, with the bytes it points to. -/
structure Data where
  addr : ℕ
  bytes : List UInt8
  deriving DecidableEq

/-- Read `n` bytes through a pointer; reading nothing needs no valid pointer. -/
def readBytes (p : Option Data) (n : ℕ) : Option (List UInt8) :=
  if n = 0 then
    some []
  else do
    let d ← p
    if n ≤ d.bytes.length then some (d.bytes.take n) else none

/-- `ht_item_t`. -/
structure HtItem where
  hash : UInt32
  key : Key
  data : Option Data
  dlen : ℕ
  deriving DecidableEq

/-- The arguments a pair iterator callback sees. -/
structure Visit where
  key : Key
  data : Option Data
  dlen : ℕ
  deriving DecidableEq

/-- The arguments for an item. -/
def HtItem.visit (it : HtItem) : Visit := ⟨it.key, it.data, it.dlen⟩

/-- `ht_items_list_t`: a bucket and the slot it was created for. -/
structure ItemsList where
  head : List HtItem
  index : ℕ
  deriving DecidableEq

/-- The two parallel structures that hold the buckets: the array and the
iterator list. -/
structure Buckets where
  lists : Heap ItemsList
  items : List (Option Addr)
  iteratorList : List Addr

/-- `hashtable_t`.  `released` records the pointers passed to the free callback
and `brk` is the next address for a copied value. -/
structure HashTable extends Buckets where
  size : ℕ
  maxSize : ℕ
  count : ℕ
  seed : UInt32
  freeItemCb : Bool
  released : List (Option Data)
  brk : ℕ

namespace HashTable

/-- `HT_SIZE_MIN`. -/
def htSizeMin : ℕ := 128

/-- `calloc(n, sizeof(ht_items_list_t *))` succeeds: the size in bytes does not
overflow. -/
def callocFits (n : ℕ) : Prop := n * 8 < 2 ^ 64

instance (n : ℕ) : Decidable (callocFits n) :=
  inferInstanceAs (Decidable (_ < _))

/-- One round of the hash loop. -/
def hashByte (hash : UInt32) (c : UInt8) : UInt32 :=
  let hash := hash + c.toUInt32
  let hash := hash + (hash <<< 10)
  hash ^^^ (hash >>> 6)

/-- `ht_hash_one_at_a_time`. -/
def htHashOneAtATime (seed : UInt32) (str : Key) : UInt32 :=
  let hash := str.foldl hashByte (seed + UInt32.ofNat str.length)
  let hash := hash + (hash <<< 3)
  let hash := hash ^^^ (hash >>> 11)
  hash + (hash <<< 15)

/-- `HT_KEY_EQUALS`: first bytes, lengths and contents agree. -/
def htKeyEquals (k1 k2 : Key) : Bool :=
  k1.head? = k2.head? && k1.length = k2.length && k1 = k2

/-- `ht_create` and `ht_init`; there is no table when the bucket array cannot
be allocated. -/
def htCreate (initialSize maxSize : ℕ) (cb : Bool) (seed : UInt32) :
    Option HashTable :=
  let size := if htSizeMin < initialSize then initialSize else htSizeMin
  if callocFits size then
    some {
      lists := Heap.empty
      items := List.replicate size none
      iteratorList := []
      size := size
      maxSize := maxSize
      count := 0
      seed := seed
      freeItemCb := cb
      released := []
      brk := 0 }
  else
    none

/-- Call the free callback, if one is set. -/
def callFreeItemCb (t : HashTable) (data : Option Data) : HashTable :=
  if t.freeItemCb then { t with released := t.released ++ [data] } else t

/-! ## Buckets -/

/-- Create a bucket for a slot and register it in both structures, as
`ht_set_list` and the growth loop do. -/
def newList (b : Buckets) (index : ℕ) : Buckets × Addr :=
  let r := b.lists.alloc { head := [], index := index }
  ({ lists := r.1
     items := b.items.set index (some r.2)
     iteratorList := b.iteratorList ++ [r.2] }, r.2)

/-- Replace the items of a bucket. -/
def setItems (b : Buckets) (list : Addr) (its : List HtItem) : Option Buckets := do
  let ls ← b.lists.modify list fun l => { l with head := its }
  some { b with lists := ls }

/-- Insert an item at the tail of a bucket. -/
def insertTail (b : Buckets) (list : Addr) (item : HtItem) : Option Buckets := do
  let l ← b.lists list
  setItems b list (l.head ++ [item])

/-- `ht_get_list`: the bucket of a hash, if there is one. -/
def htGetList (t : HashTable) (hash : UInt32) : Option (Option Addr) :=
  t.items[hash.toNat % t.size]?

/-- `ht_set_list`: the bucket of a hash, created if there is none. -/
def htSetList (t : HashTable) (hash : UInt32) : Option (HashTable × Addr) := do
  let index := hash.toNat % t.size
  match ← t.items[index]? with
  | some list => some (t, list)
  | none =>
      let r := newList t.toBuckets index
      some ({ t with toBuckets := r.1 }, r.2)

/-! ## Growth -/

/-- One round of the inner loop of `ht_grow_table`: move an item to its bucket
in the new array. -/
def moveItem (newSize : ℕ) (b : Buckets) (item : HtItem) : Option Buckets := do
  let index := item.hash.toNat % newSize
  match ← b.items[index]? with
  | some list => insertTail b list item
  | none =>
      let r := newList b index
      insertTail r.1 r.2 item

/-- One round of the outer loop of `ht_grow_table`: move all items of an old
bucket and release it. -/
def moveList (newSize : ℕ) (b : Buckets) (list : Addr) : Option Buckets := do
  let l ← b.lists list
  let b ← l.head.foldlM (moveItem newSize) b
  let ls ← b.lists.free list
  some { b with lists := ls }

/-- The size `ht_grow_table` asks for: twice the current one, capped. -/
def grownSize (t : HashTable) : ℕ :=
  let newSize := t.size <<< 1 % 2 ^ 64
  if t.maxSize ≠ 0 ∧ t.maxSize < newSize then t.maxSize else newSize

/-- `ht_grow_table`. -/
def htGrowTable (t : HashTable) : Option HashTable :=
  if t.maxSize ≠ 0 ∧ t.maxSize ≤ t.size then
    some t
  else
    let newSize := t.grownSize
    if callocFits newSize then do
      let b ← t.iteratorList.foldlM (moveList newSize)
        { lists := t.lists, items := List.replicate newSize none, iteratorList := [] }
      some { t with toBuckets := b, size := newSize }
    else
      some t

/-! ## Setting values -/

/-- The result of a setter: its return code and what it wrote through
`prev_data` and `prev_len`, if anything. -/
structure SetResult where
  ret : ℤ
  prevData : Option (Option Data)
  prevLen : Option ℕ
  deriving DecidableEq

/-- Write through an out parameter, if the caller passed one. -/
def writeOut {α : Type} (wanted : Bool) (v : α) : Option α :=
  if wanted then some v else none

/-- Update the first item with the given key. -/
def updateItem (key : Key) (f : HtItem → HtItem) : List HtItem → List HtItem
  | [] => []
  | it :: its =>
      if htKeyEquals it.key key then f it :: its else it :: updateItem key f its

/-- Remove the first item with the given key. -/
def removeItem (key : Key) : List HtItem → List HtItem
  | [] => []
  | it :: its =>
      if htKeyEquals it.key key then its else it :: removeItem key its

/-- `malloc(dlen)` and `memcpy(.., data, dlen)`, with the next free address. -/
def copyData (brk : ℕ) (data : Option Data) (dlen : ℕ) :
    Option (ℕ × Option Data) := do
  let bytes ← readBytes data dlen
  some (brk + 1, some { addr := brk, bytes := bytes })

/-- The data pointer stored in a new item. -/
def newItemData (brk : ℕ) (data : Option Data) (dlen : ℕ) (copy : Bool) :
    Option (ℕ × Option Data) :=
  if copy then
    if dlen ≠ 0 then copyData brk data dlen else some (brk, none)
  else
    some (brk, data)

/-- The data pointer stored over an existing one. -/
def updatedItemData (brk : ℕ) (data : Option Data) (dlen : ℕ) (copy : Bool) :
    Option (ℕ × Option Data) :=
  if copy then copyData brk data dlen else some (brk, data)

/-- The load test at the end of `ht_set_internal`. -/
def needsGrowth (t : HashTable) : Prop :=
  t.size + t.size / 3 < t.count ∧ (t.maxSize = 0 ∨ t.size < t.maxSize)

instance (t : HashTable) : Decidable t.needsGrowth :=
  inferInstanceAs (Decidable (_ ∧ _))

/-- Grow the table when the load test asks for it. -/
def growIfNeeded (t : HashTable) : Option HashTable :=
  if t.needsGrowth then t.htGrowTable else some t

/-- The end of `ht_set_internal`: grow if needed, then hand out or release the
previous value. -/
def finishSet (t : HashTable) (prev : Option Data) (plen : ℕ)
    (prevData prevLen : Bool) : Option (HashTable × SetResult) := do
  let t ← t.growIfNeeded
  let t := if prev.isSome ∧ ¬ prevData then t.callFreeItemCb prev else t
  some (t, {
    ret := 0
    prevData := writeOut prevData prev
    prevLen := writeOut prevLen plen })

/-- The part of `ht_set_internal` under the lock of the bucket.  Whether the key
is present is decided by the data pointer of the item found, as in the source. -/
def setInList (t : HashTable) (list : Addr) (hash : UInt32) (key : Key)
    (data : Option Data) (dlen : ℕ) (prevData prevLen copy inx : Bool) :
    Option (HashTable × SetResult) := do
  let l ← t.lists list
  let found := l.head.find? fun it => htKeyEquals it.key key
  let plen := (found.map HtItem.dlen).getD 0
  match found.bind HtItem.data with
  | none => do
      let (brk, stored) ← newItemData t.brk data dlen copy
      let b ← insertTail t.toBuckets list
        { hash := hash, key := key, data := stored, dlen := dlen }
      finishSet { t with toBuckets := b, count := t.count + 1, brk := brk } none plen
        prevData prevLen
  | some prev =>
      if inx then
        some (t, {
          ret := 1
          prevData := writeOut prevData (some prev)
          prevLen := writeOut prevLen plen })
      else do
        let (brk, stored) ← updatedItemData t.brk data dlen copy
        let b ← setItems t.toBuckets list
          (updateItem key (fun it => { it with data := stored, dlen := dlen }) l.head)
        finishSet { t with toBuckets := b, brk := brk } (some prev) plen prevData prevLen

/-- `ht_set_internal`. -/
def htSetInternal (t : HashTable) (key : Key) (data : Option Data) (dlen : ℕ)
    (prevData prevLen copy inx : Bool) : Option (HashTable × SetResult) :=
  if key.length = 0 then
    some (t, { ret := -1, prevData := none, prevLen := none })
  else do
    let hash := htHashOneAtATime t.seed key
    let (t, list) ←
      match ← t.htGetList hash with
      | some list => some (t, list)
      | none => t.htSetList hash
    t.setInList list hash key data dlen prevData prevLen copy inx

/-- `ht_set`. -/
def htSet (t : HashTable) (key : Key) (data : Option Data) (dlen : ℕ) :
    Option (HashTable × SetResult) :=
  t.htSetInternal key data dlen false false false false

/-- `ht_set_if_not_exists`. -/
def htSetIfNotExists (t : HashTable) (key : Key) (data : Option Data) (dlen : ℕ) :
    Option (HashTable × SetResult) :=
  t.htSetInternal key data dlen false false false true

/-- `ht_get_or_set`. -/
def htGetOrSet (t : HashTable) (key : Key) (data : Option Data) (dlen : ℕ)
    (curData curLen : Bool) : Option (HashTable × SetResult) :=
  t.htSetInternal key data dlen curData curLen false true

/-- `ht_get_and_set`. -/
def htGetAndSet (t : HashTable) (key : Key) (data : Option Data) (dlen : ℕ)
    (prevData prevLen : Bool) : Option (HashTable × SetResult) :=
  t.htSetInternal key data dlen prevData prevLen false false

/-- `ht_set_copy`. -/
def htSetCopy (t : HashTable) (key : Key) (data : Option Data) (dlen : ℕ)
    (prevData prevLen : Bool) : Option (HashTable × SetResult) :=
  t.htSetInternal key data dlen prevData prevLen true false

/-! ## Calling back on an item -/

/-- What a pair callback leaves behind: its return code, the value and length
it stored through its pointers, the table with the bookkeeping of its own
allocations and releases, and its result for the caller. -/
structure CallResult (ρ : Type) where
  ret : ℤ
  data : Option Data
  dlen : ℕ
  released : List (Option Data)
  brk : ℕ
  out : ρ

/-- `ht_pair_callback_t`, called with the table, the value and its length. -/
abbrev PairCallback (ρ : Type) := HashTable → Option Data → ℕ → Option (CallResult ρ)

/-- `ht_call_internal` with a callback.  The callback may overwrite the item's
value in place, and removes the item by returning 1. -/
def htCallInternal {ρ : Type} (t : HashTable) (key : Key) (cb : PairCallback ρ) :
    Option (HashTable × ℤ × Option ρ) := do
  match ← t.htGetList (htHashOneAtATime t.seed key) with
  | none => some (t, -1, none)
  | some list => do
      let l ← t.lists list
      match l.head.find? fun it => htKeyEquals it.key key with
      | none => some (t, -1, none)
      | some item => do
          let r ← cb t item.data item.dlen
          let t := { t with released := r.released, brk := r.brk }
          if r.ret = 1 then do
            let b ← setItems t.toBuckets list (removeItem key l.head)
            some ({ t with toBuckets := b, count := t.count - 1 }, 0, some r.out)
          else do
            let b ← setItems t.toBuckets list
              (updateItem key (fun it => { it with data := r.data, dlen := r.dlen }) l.head)
            some ({ t with toBuckets := b }, r.ret, some r.out)

/-- `ht_call` with a callback that decides on a return code, a value and a
length. -/
def htCall (t : HashTable) (key : Key) (cb : Option Data → ℕ → ℤ × Option Data × ℕ) :
    Option (HashTable × ℤ) := do
  let r ← t.htCallInternal (ρ := Unit) key fun t value vlen =>
    let d := cb value vlen
    some {
      ret := d.1
      data := d.2.1
      dlen := d.2.2
      released := t.released
      brk := t.brk
      out := () }
  some (r.1, r.2.1)

/-- `ht_call_internal` without a callback: 0 if the key is found. -/
def htCallNone (t : HashTable) (key : Key) : Option ℤ := do
  match ← t.htGetList (htHashOneAtATime t.seed key) with
  | none => some (-1)
  | some list => do
      let l ← t.lists list
      match l.head.find? fun it => htKeyEquals it.key key with
      | none => some (-1)
      | some _ => some 0

/-- `ht_exists`. -/
def htExists (t : HashTable) (key : Key) : Option Bool := do
  let ret ← t.htCallNone key
  some (ret = 0)

/-- The callback `ht_get_helper`. -/
def htGetHelper (copy : Bool) (copyCb : Option (Option Data → ℕ → Option Data))
    (wantLen : Bool) : PairCallback (Option Data × Option ℕ) :=
  fun t value vlen => do
    let (brk, data) ←
      if copy then
        match copyCb with
        | some cb => some (t.brk, cb value vlen)
        | none => copyData t.brk value vlen
      else
        some (t.brk, value)
    some {
      ret := 0
      data := value
      dlen := vlen
      released := t.released
      brk := brk
      out := (data, writeOut wantLen vlen) }

/-- `ht_get_internal`: the data pointer, null if the key is not found, and the
length written through `dlen`. -/
def htGetInternal (t : HashTable) (key : Key) (wantLen copy : Bool)
    (copyCb : Option (Option Data → ℕ → Option Data)) :
    Option (HashTable × Option Data × Option ℕ) := do
  let (t, _, out) ← t.htCallInternal key (htGetHelper copy copyCb wantLen)
  some (t, (out.map Prod.fst).join, (out.map Prod.snd).join)

/-- `ht_get`. -/
def htGet (t : HashTable) (key : Key) (wantLen : Bool) :
    Option (HashTable × Option Data × Option ℕ) :=
  t.htGetInternal key wantLen false none

/-- `ht_get_copy`. -/
def htGetCopy (t : HashTable) (key : Key) (wantLen : Bool) :
    Option (HashTable × Option Data × Option ℕ) :=
  t.htGetInternal key wantLen true none

/-- `ht_get_deep_copy`. -/
def htGetDeepCopy (t : HashTable) (key : Key) (wantLen : Bool)
    (copyCb : Option (Option Data → ℕ → Option Data)) :
    Option (HashTable × Option Data × Option ℕ) :=
  t.htGetInternal key wantLen true copyCb

/-- The comparison of `ht_set_if_equals_helper`: sizes, first bytes, then
contents.  The first bytes are read even when the size is zero. -/
def valueMatches (value : Option Data) (vlen : ℕ) (matchData : Option Data)
    (matchSize : ℕ) : Option Bool :=
  if matchSize = vlen then do
    let v ← value
    let m ← matchData
    let v0 ← v.bytes.head?
    let m0 ← m.bytes.head?
    if v0 = m0 then do
      let vs ← readBytes value matchSize
      let ms ← readBytes matchData matchSize
      some (vs = ms)
    else
      some false
  else
    some false

/-- The callback `ht_set_if_equals_helper`; its result is the `matched` flag and
what was written through `prev_data` and `prev_len`. -/
def htSetIfEqualsHelper (data : Option Data) (dlen : ℕ) (matchData : Option Data)
    (matchSize : ℕ) (prevData prevLen : Bool) :
    PairCallback (Bool × Option (Option Data) × Option ℕ) :=
  fun t value vlen => do
    let matched ← valueMatches value vlen matchData matchSize
    let out := (matched, writeOut prevData value, writeOut prevLen vlen)
    if matched then
      let t := if prevData then t else t.callFreeItemCb value
      some {
        ret := 0
        data := data
        dlen := dlen
        released := t.released
        brk := t.brk
        out := out }
    else
      some {
        ret := 0
        data := value
        dlen := vlen
        released := t.released
        brk := t.brk
        out := out }

/-- `ht_set_if_equals`. -/
def htSetIfEquals (t : HashTable) (key : Key) (data : Option Data) (dlen : ℕ)
    (matchData : Option Data) (matchSize : ℕ) (prevData prevLen : Bool) :
    Option (HashTable × SetResult) :=
  if matchData = none ∧ matchSize = 0 then
    t.htSetIfNotExists key data dlen
  else do
    let (t, ret, out) ← t.htCallInternal key
      (htSetIfEqualsHelper data dlen matchData matchSize prevData prevLen)
    match out with
    | some (matched, prev, plen) =>
        if ret = 0 then
          some (t, { ret := if matched then 0 else 1, prevData := prev, prevLen := plen })
        else
          some (t, { ret := -1, prevData := prev, prevLen := plen })
    | none => some (t, { ret := -1, prevData := none, prevLen := none })

/-- The refusal test of `ht_delete_helper`. -/
def matchRefuses (value : Option Data) (vlen : ℕ) (matchData : Option Data)
    (matchSize : ℕ) : Option Bool :=
  match matchData with
  | none => some false
  | some _ =>
      if matchSize ≠ vlen then
        some true
      else do
        let ms ← readBytes matchData vlen
        let vs ← readBytes value vlen
        some (ms ≠ vs)

/-- The callback `ht_delete_helper`. -/
def htDeleteHelper (unset : Bool) (prevData prevLen : Bool) (matchData : Option Data)
    (matchSize : ℕ) : PairCallback (Option (Option Data) × Option ℕ) :=
  fun t value vlen => do
    if ← matchRefuses value vlen matchData matchSize then
      some {
        ret := -1
        data := value
        dlen := vlen
        released := t.released
        brk := t.brk
        out := (none, none) }
    else
      let t := if prevData then t else t.callFreeItemCb value
      let out := (writeOut prevData value, writeOut prevLen vlen)
      if unset then
        some {
          ret := 0
          data := none
          dlen := 0
          released := t.released
          brk := t.brk
          out := out }
      else
        some {
          ret := 1
          data := value
          dlen := vlen
          released := t.released
          brk := t.brk
          out := out }

/-- `ht_unset` and `ht_delete_internal`, which differ in the helper's flags. -/
def htDeleteInternal (t : HashTable) (key : Key) (unset prevData prevLen : Bool)
    (matchData : Option Data) (matchSize : ℕ) : Option (HashTable × SetResult) := do
  let (t, ret, out) ← t.htCallInternal key
    (htDeleteHelper unset prevData prevLen matchData matchSize)
  some (t, {
    ret := ret
    prevData := (out.map Prod.fst).join
    prevLen := (out.map Prod.snd).join })

/-- `ht_unset`. -/
def htUnset (t : HashTable) (key : Key) (prevData prevLen : Bool) :
    Option (HashTable × SetResult) :=
  t.htDeleteInternal key true prevData prevLen none 0

/-- `ht_delete`. -/
def htDelete (t : HashTable) (key : Key) (prevData prevLen : Bool) :
    Option (HashTable × SetResult) :=
  t.htDeleteInternal key false prevData prevLen none 0

/-- `ht_delete_if_equals`. -/
def htDeleteIfEquals (t : HashTable) (key : Key) (matchData : Option Data)
    (matchSize : ℕ) : Option (HashTable × SetResult) :=
  t.htDeleteInternal key false false false matchData matchSize

/-! ## Whole-table operations -/

/-- The items of a bucket; none through a dangling pointer. -/
def itemsOf (b : Buckets) (list : Addr) : Option (List HtItem) :=
  (b.lists list).map ItemsList.head

/-- One round of `ht_clear`: release the items of a bucket, then the bucket. -/
def clearList (t : HashTable) (list : Addr) : Option HashTable := do
  let l ← t.lists list
  let t := l.head.foldl (fun t it => t.callFreeItemCb it.data) t
  let ls ← t.lists.free list
  some { t with
    lists := ls
    items := t.items.set l.index none
    iteratorList := t.iteratorList.erase list
    count := t.count - l.head.length }

/-- `ht_clear`. -/
def htClear (t : HashTable) : Option HashTable :=
  t.iteratorList.foldlM clearList t

/-- `ht_destroy`, up to the release of the table itself. -/
def htDestroy (t : HashTable) : Option HashTable := t.htClear

/-- `HT_ITERATOR_STOP`. -/
def htIteratorStop : ℤ := 0

/-- `HT_ITERATOR_CONTINUE`. -/
def htIteratorContinue : ℤ := 1

/-- `HT_ITERATOR_REMOVE`. -/
def htIteratorRemove : ℤ := -1

/-- `HT_ITERATOR_REMOVE_AND_STOP`. -/
def htIteratorRemoveAndStop : ℤ := -2

/-- A pair iterator callback, as a function of all visits of this iteration so
far, the current one last. -/
abbrev PairIterator := List Visit → ℤ

/-- What the iteration over a list of items leaves: the visits made, the items
kept, the items removed, and whether it stopped. -/
structure Sweep where
  visits : List Visit
  kept : List HtItem
  removed : List HtItem
  stop : Bool

/-- The inner loop of `ht_foreach_pair`. -/
def foreachItems (cb : PairIterator) : List Visit → List HtItem → Sweep
  | visits, [] => ⟨visits, [], [], false⟩
  | visits, it :: its =>
      let visits := visits ++ [it.visit]
      let rc := cb visits
      if rc = htIteratorContinue then
        let s := foreachItems cb visits its
        { s with kept := it :: s.kept }
      else if rc = htIteratorStop then
        ⟨visits, it :: its, [], true⟩
      else if rc = htIteratorRemoveAndStop then
        ⟨visits, its, [it], true⟩
      else
        let s := foreachItems cb visits its
        { s with removed := it :: s.removed }

/-- The outer loop of `ht_foreach_pair`, over the registered buckets. -/
def foreachLists (cb : PairIterator) :
    List Addr → HashTable → List Visit → Option (HashTable × List Visit)
  | [], t, visits => some (t, visits)
  | list :: lists, t, visits => do
      let its ← itemsOf t.toBuckets list
      let s := foreachItems cb visits its
      let b ← setItems t.toBuckets list s.kept
      let t := s.removed.foldl (fun t it => t.callFreeItemCb it.data)
        { t with toBuckets := b, count := t.count - s.removed.length }
      if s.stop then some (t, s.visits) else foreachLists cb lists t s.visits

/-- `ht_foreach_pair`; the result lists the visits made. -/
def htForeachPair (t : HashTable) (cb : PairIterator) :
    Option (HashTable × List Visit) :=
  foreachLists cb t.iteratorList t []

/-- `ht_foreach_key`, whose callback sees the keys. -/
def htForeachKey (t : HashTable) (cb : List Key → ℤ) :
    Option (HashTable × List Visit) :=
  t.htForeachPair fun visits => cb (visits.map Visit.key)

/-- `ht_foreach_value`, whose callback sees the values and their lengths. -/
def htForeachValue (t : HashTable) (cb : List (Option Data × ℕ) → ℤ) :
    Option (HashTable × List Visit) :=
  t.htForeachPair fun visits => cb (visits.map fun v => (v.data, v.dlen))

/-- The items met along the iterator list. -/
def registeredItems (t : HashTable) : Option (List HtItem) := do
  let its ← t.iteratorList.mapM (itemsOf t.toBuckets)
  some its.flatten

/-- `ht_get_all_keys`: the key and the value length of each item. -/
def htGetAllKeys (t : HashTable) : Option (List (Key × ℕ)) := do
  let its ← t.registeredItems
  some (its.map fun it => (it.key, it.dlen))

/-- `ht_get_all_values`: the value with its length and key, for each item. -/
def htGetAllValues (t : HashTable) : Option (List Visit) := do
  let its ← t.registeredItems
  some (its.map HtItem.visit)

/-- `ht_count`. -/
def htCount (t : HashTable) : ℕ := t.count

/-- `ht_set_free_item_callback`. -/
def htSetFreeItemCallback (t : HashTable) (cb : Bool) : HashTable :=
  { t with freeItemCb := cb }

end HashTable
end LibHL
