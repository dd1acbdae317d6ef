import LibHL.Support.Heap
import Mathlib.Algebra.Group.Int.Defs
import Mathlib.Algebra.Group.Nat.Defs
import Mathlib.Data.Int.Init

/-!
# The linked list of `linklist.c`

Entries live in a heap of their own; the list descriptor holds the head, the
tail, the length and the cached cursor.  Every routine takes the list and
returns the updated one together with its C result.  A routine has no result
when it would dereference a null or released entry.

Positions are natural numbers, as the sizes of the source are.  The two places
where the source narrows them keep the narrowing: the distance to the cursor is
computed in a 32-bit `int`, and the walking loops count with an `unsigned int`.
-/

namespace LibHL

/-- Conversion to a 32-bit `int`. -/
def cInt (n : ℤ) : ℤ := n.bmod (2 ^ 32)

/-- Conversion to a 32-bit `unsigned int`. -/
def cUInt (n : ℕ) : ℕ := n % 2 ^ 32

/-- `list_entry_t`.  A null value pointer is `none`; the owner pointer `list`
is either null or the list the entry is linked in. -/
structure ListEntry (V : Type) where
  list : Bool
  prev : Option Addr
  next : Option Addr
  value : Option V
  deriving DecidableEq

/-- `linked_list_t`, with the heap its entries are allocated in. -/
structure LinkedList (V : Type) where
  entries : Heap (ListEntry V)
  head : Option Addr
  tail : Option Addr
  cur : Option Addr
  pos : ℕ
  length : ℕ

namespace LinkedList

variable {V : Type}

/-- `list_create`: a zeroed descriptor. -/
def listCreate : LinkedList V where
  entries := Heap.empty
  head := none
  tail := none
  cur := none
  pos := 0
  length := 0

/-- `list_count`. -/
def listCount (l : LinkedList V) : ℕ := l.length

/-- `create_entry`: a zeroed entry, not linked anywhere. -/
def createEntry (l : LinkedList V) : LinkedList V × Addr :=
  let r := l.entries.alloc { list := false, prev := none, next := none, value := none }
  ({ l with entries := r.1 }, r.2)

/-- Assign the `value` field of an entry. -/
def setEntryValue (l : LinkedList V) (entry : Addr) (val : Option V) :
    Option (LinkedList V) := do
  let es ← l.entries.modify entry fun e => { e with value := val }
  some { l with entries := es }

/-! ## Walking the chain -/

/-- Follow `next` from an entry a given number of times. -/
def walkNext (es : Heap (ListEntry V)) : ℕ → Option Addr → Option (Option Addr)
  | 0, entry => some entry
  | n + 1, entry => do
      let a ← entry
      let e ← es a
      walkNext es n e.next

/-- Follow `prev` from an entry a given number of times. -/
def walkPrev (es : Heap (ListEntry V)) : ℕ → Option Addr → Option (Option Addr)
  | 0, entry => some entry
  | n + 1, entry => do
      let a ← entry
      let e ← es a
      walkPrev es n e.prev

/-- A walk that counts up from `i` to `pos` with an `unsigned int`.  A position that does not
fit there is never reached, and the chain ends before the walk does. -/
def walkUp (es : Heap (ListEntry V)) (i pos : ℕ) (entry : Option Addr) :
    Option (Option Addr) :=
  if pos < 2 ^ 32 then walkNext es (pos - i) entry else none

/-- The cursor is set and `(size_t)abs((int)(list->pos - pos))` is below half
the length. -/
def cursorIsClose (l : LinkedList V) (pos : ℕ) : Bool :=
  l.cur.isSome && decide ((cInt ((l.pos : ℤ) - pos)).natAbs < l.length / 2)

/-- The entry found by the walk of `pick_entry`, from the cursor, the tail or
the head. -/
def seekEntry (l : LinkedList V) (pos : ℕ) : Option (Option Addr) :=
  if l.cursorIsClose pos then
    if l.pos < pos then
      walkUp l.entries (cUInt l.pos) pos l.cur
    else if pos < l.pos then
      walkPrev l.entries (cUInt l.pos - pos) l.cur
    else
      some l.cur
  else if l.length / 2 < pos then
    walkPrev l.entries (cUInt (l.length - 1) - pos) l.tail
  else
    walkUp l.entries 0 pos l.head

/-- `pick_entry`: the entry at `pos`, which also becomes the cursor. -/
def pickEntry (l : LinkedList V) (pos : ℕ) :
    Option (LinkedList V × Option Addr) :=
  if l.length ≤ pos then
    some (l, none)
  else do
    let entry ← l.seekEntry pos
    match entry with
    | some a => some ({ l with pos := pos, cur := some a }, some a)
    | none => some (l, none)

/-! ## Linking and unlinking entries -/

/-- `entry->list = NULL; entry->prev = NULL; entry->next = NULL`. -/
def detach (es : Heap (ListEntry V)) (entry : Addr) : Option (Heap (ListEntry V)) :=
  es.modify entry fun e => { e with list := false, prev := none, next := none }

/-- Assign the `next` field of a non-null entry. -/
def setNext (es : Heap (ListEntry V)) (entry next : Option Addr) :
    Option (Heap (ListEntry V)) :=
  match entry with
  | none => some es
  | some a => es.modify a fun e => { e with next := next }

/-- Assign the `prev` field of a non-null entry. -/
def setPrev (es : Heap (ListEntry V)) (entry prev : Option Addr) :
    Option (Heap (ListEntry V)) :=
  match entry with
  | none => some es
  | some a => es.modify a fun e => { e with prev := prev }

/-- `if (list->length == 0) list->head = list->tail = NULL`. -/
def clearEndsIfEmpty (l : LinkedList V) : LinkedList V :=
  if l.length = 0 then { l with head := none, tail := none } else l

/-- `pop_entry`. -/
def popEntry (l : LinkedList V) : Option (LinkedList V × Option Addr) :=
  match l.tail with
  | none => some (l.clearEndsIfEmpty, none)
  | some entry => do
      let e ← l.entries entry
      let es ← setNext l.entries e.prev none
      let es ← detach es entry
      some (clearEndsIfEmpty
        { l with
          entries := es
          tail := e.prev
          length := l.length - 1
          cur := if l.cur = some entry then none else l.cur }, some entry)

/-- `push_entry`. -/
def pushEntry (l : LinkedList V) (entry : Option Addr) :
    Option (LinkedList V × ℤ) :=
  match entry with
  | none => some (l, -1)
  | some a => do
      let l ←
        if l.length = 0 then
          some { l with head := some a, tail := some a }
        else do
          let p ← l.tail
          let es ← l.entries.modify p fun e => { e with next := some a }
          let es ← es.modify a fun e => { e with prev := some p, next := none }
          some { l with entries := es, tail := some a }
      let es ← l.entries.modify a fun e => { e with list := true }
      some ({ l with entries := es, length := l.length + 1 }, 0)

/-- `shift_entry`. -/
def shiftEntry (l : LinkedList V) : Option (LinkedList V × Option Addr) :=
  match l.head with
  | none => some (l.clearEndsIfEmpty, none)
  | some entry => do
      let e ← l.entries entry
      let es ← setPrev l.entries e.next none
      let es ← detach es entry
      some (clearEndsIfEmpty
        { l with
          entries := es
          head := e.next
          length := l.length - 1
          cur := if l.cur = some entry then none else l.cur
          -- the position only moves when the cursor survives
          pos := if l.cur = some entry then l.pos else l.pos - 1 }, some entry)

/-- `unshift_entry`. -/
def unshiftEntry (l : LinkedList V) (entry : Option Addr) :
    Option (LinkedList V × ℤ) :=
  match entry with
  | none => some (l, -1)
  | some a => do
      let l ←
        if l.length = 0 then
          some { l with head := some a, tail := some a }
        else do
          let p ← l.head
          let es ← l.entries.modify p fun e => { e with prev := some a }
          let es ← es.modify a fun e => { e with prev := none, next := some p }
          some { l with entries := es, head := some a }
      let es ← l.entries.modify a fun e => { e with list := true }
      some ({ l with
        entries := es
        length := l.length + 1
        pos := if l.cur.isSome then l.pos + 1 else l.pos }, 0)

/-- The padding loop of `insert_entry`: link the given number of empty entries
at the tail. -/
def padEntries : ℕ → LinkedList V → Option (LinkedList V)
  | 0, l => some l
  | n + 1, l => do
      let (l, emptyEntry) := l.createEntry
      let (l, _) ← l.pushEntry (some emptyEntry)
      padEntries n l

/-- The part of `insert_entry` after its three end cases: link the entry
behind the one at `pos - 1`. -/
def insertAfterPicked (l : LinkedList V) (entry : Option Addr) (pos : ℕ) :
    Option (LinkedList V × ℤ) := do
  -- `pos - 1` wraps around to the largest size when `pos` is zero
  let (l, prev) ← l.pickEntry (if pos = 0 then 2 ^ 64 - 1 else pos - 1)
  match prev with
  | none => some (l, -1)
  | some p => do
      let pe ← l.entries p
      let a ← entry
      let es ← l.entries.modify p fun e => { e with next := some a }
      let es ← es.modify a fun e => { e with prev := some p, next := pe.next }
      let es ← setPrev es pe.next (some a)
      some ({ l with entries := es, length := l.length + 1 }, 0)

/-- `insert_entry`. -/
def insertEntry (l : LinkedList V) (entry : Option Addr) (pos : ℕ) :
    Option (LinkedList V × ℤ) := do
  let (l, ret) ←
    if pos = 0 then
      l.unshiftEntry entry
    else if pos = l.length then
      l.pushEntry entry
    else if l.length < pos then do
      let l ← padEntries (pos - cUInt l.length) l
      l.pushEntry entry
    else
      some (l, -1)
  if ret = 0 then
    some (l, ret)
  else
    l.insertAfterPicked entry pos

/-- `remove_entry`. -/
def removeEntry (l : LinkedList V) (pos : ℕ) :
    Option (LinkedList V × Option Addr) := do
  let (l, picked) ← l.pickEntry pos
  match picked with
  | none => some (l, none)
  | some entry => do
      let e ← l.entries entry
      let head := if pos = 0 then e.next else l.head
      let tail := if pos ≠ 0 ∧ pos = l.length - 1 then e.prev else l.tail
      let es ← setNext l.entries e.prev e.next
      let es ← setPrev es e.next e.prev
      let es ← detach es entry
      let atCursor := l.cur = some entry
      some ({ l with
        entries := es
        head := head
        tail := tail
        length := l.length - 1
        cur := if atCursor then none else l.cur
        pos := if atCursor then 0 else if pos < l.pos then l.pos - 1 else l.pos },
        some entry)

/-- `fetch_entry`. -/
def fetchEntry (l : LinkedList V) (pos : ℕ) :
    Option (LinkedList V × Option Addr) :=
  if pos = 0 then
    l.shiftEntry
  -- `list_count(list) - 1` wraps around on an empty list
  else if pos = (if l.length = 0 then 2 ^ 64 - 1 else l.length - 1) then
    l.popEntry
  else
    l.removeEntry pos

/-- The scan of `get_entry_position`; it stops at the end of the chain, so a
chain of live entries needs at most one round for each allocated cell. -/
def findPosition (es : Heap (ListEntry V)) (entry : Addr) :
    ℕ → Option Addr → ℕ → Option (Option ℕ)
  | _, none, _ => some none
  | 0, some _, _ => none
  | fuel + 1, some p, i =>
      if p = entry then
        some (some i)
      else do
        let e ← es p
        findPosition es entry fuel e.next (i + 1)

/-- `destroy_entry`: unlink the entry if it still has an owner, then free it. -/
def destroyEntry (l : LinkedList V) (entry : Addr) : Option (LinkedList V) := do
  let e ← l.entries entry
  let l ←
    if e.list then do
      let found ← findPosition l.entries entry (l.entries.brk + 1) l.head 0
      match found with
      | none => some l
      | some pos => do
          let (l, _) ← l.removeEntry pos
          some l
    else
      some l
  let es ← l.entries.free entry
  some { l with entries := es }

/-- `move_entry`. -/
def moveEntry (l : LinkedList V) (srcPos dstPos : ℕ) :
    Option (LinkedList V × ℤ) := do
  let (l, e) ← l.fetchEntry srcPos
  match e with
  | none => some (l, -1)
  | some a => do
      let (l, ret) ← l.insertEntry (some a) dstPos
      if ret = 0 then
        some (l, 0)
      else do
        let (l, _) ← l.insertEntry (some a) srcPos
        some (l, -1)

/-- One half of `swap_entries`, for `lo` below `hi`: bring the entry at `hi`
down to `lo`, then the one it displaced up to `hi`. -/
def exchangeEntries (l : LinkedList V) (lo hi : ℕ) : Option (LinkedList V × ℤ) := do
  let (l, e2) ← l.fetchEntry hi
  let (l, _) ← l.insertEntry e2 lo
  let (l, e1) ← l.fetchEntry (lo + 1)
  let (l, _) ← l.insertEntry e1 hi
  some (l, 0)

/-- `swap_entries`. -/
def swapEntries (l : LinkedList V) (pos1 pos2 : ℕ) : Option (LinkedList V × ℤ) :=
  if pos1 < pos2 then
    l.exchangeEntries pos1 pos2
  else if pos2 < pos1 then
    l.exchangeEntries pos2 pos1
  else
    some (l, -1)

/-! ## The value API -/

/-- Read the value of a fetched entry and destroy the entry; null if there is
none. -/
def takeValue (r : LinkedList V × Option Addr) : Option (LinkedList V × Option V) :=
  match r.2 with
  | none => some (r.1, none)
  | some entry => do
      let e ← r.1.entries entry
      let l ← r.1.destroyEntry entry
      some (l, e.value)

/-- `list_pop_value`. -/
def listPopValue (l : LinkedList V) : Option (LinkedList V × Option V) := do
  takeValue (← l.popEntry)

/-- `list_shift_value`. -/
def listShiftValue (l : LinkedList V) : Option (LinkedList V × Option V) := do
  takeValue (← l.shiftEntry)

/-- `list_fetch_value`. -/
def listFetchValue (l : LinkedList V) (pos : ℕ) :
    Option (LinkedList V × Option V) := do
  takeValue (← l.fetchEntry pos)

/-- Create an entry for `val`, link it, and destroy it again if that fails. -/
def linkValue (l : LinkedList V) (val : Option V)
    (link : LinkedList V → Option Addr → Option (LinkedList V × ℤ)) :
    Option (LinkedList V × ℤ) := do
  let (l, newEntry) := l.createEntry
  let l ← l.setEntryValue newEntry val
  let (l, res) ← link l (some newEntry)
  if res ≠ 0 then do
    let l ← l.destroyEntry newEntry
    some (l, res)
  else
    some (l, res)

/-- `list_push_value`. -/
def listPushValue (l : LinkedList V) (val : Option V) : Option (LinkedList V × ℤ) :=
  l.linkValue val pushEntry

/-- `list_unshift_value`. -/
def listUnshiftValue (l : LinkedList V) (val : Option V) :
    Option (LinkedList V × ℤ) :=
  l.linkValue val unshiftEntry

/-- `list_insert_value`. -/
def listInsertValue (l : LinkedList V) (val : Option V) (pos : ℕ) :
    Option (LinkedList V × ℤ) :=
  l.linkValue val fun l e => l.insertEntry e pos

/-- `list_pick_value`. -/
def listPickValue (l : LinkedList V) (pos : ℕ) :
    Option (LinkedList V × Option V) := do
  let (l, entry) ← l.pickEntry pos
  match entry with
  | none => some (l, none)
  | some a => do
      let e ← l.entries a
      some (l, e.value)

/-- `list_move_value`. -/
def listMoveValue (l : LinkedList V) (srcPos dstPos : ℕ) :
    Option (LinkedList V × ℤ) :=
  l.moveEntry srcPos dstPos

/-- `list_set_value`. -/
def listSetValue (l : LinkedList V) (pos : ℕ) (newval : Option V) :
    Option (LinkedList V × Option V) := do
  let (l, entry) ← l.pickEntry pos
  match entry with
  | some a => do
      let e ← l.entries a
      let l ← l.setEntryValue a newval
      some (l, e.value)
  | none => do
      let (l, _) ← l.listInsertValue newval pos
      some (l, none)

/-- `list_subst_value`. -/
def listSubstValue (l : LinkedList V) (pos : ℕ) (newval : Option V) :
    Option (LinkedList V × Option V) := do
  let (l, entry) ← l.pickEntry pos
  match entry with
  | some a => do
      let e ← l.entries a
      let l ← l.setEntryValue a newval
      some (l, e.value)
  | none => some (l, none)

/-- `list_swap_values`. -/
def listSwapValues (l : LinkedList V) (pos1 pos2 : ℕ) : Option (LinkedList V × ℤ) :=
  l.swapEntries pos1 pos2

end LinkedList
end LibHL
