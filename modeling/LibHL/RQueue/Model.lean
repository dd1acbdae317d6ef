import LibHL.Support.Heap
import Mathlib.Data.Int.Init

/-!
# The ring queue of `rqueue.c`, in a single thread

Pages form a ring; the reader page stays outside of it and changes places with
the head page at every read.  The next pointer of the page before the head
carries a flag.

With a single thread `read_sync` and `write_sync` are free whenever a call
starts, `num_writers` is one during a write, and every check that a value read
before is still there succeeds; none of them appears here.  A compare-and-swap
against a value that was not read from the same place just before is kept.
The retry statistics and the back-off delays are left out.
-/

namespace LibHL

/-- A next pointer: its clean page address and its head flag.  The update flag
is never set. -/
structure PageLink where
  page : Option Addr
  head : Bool
  deriving DecidableEq

/-- `rqueue_page_t`. -/
structure RQueuePage (V : Type) where
  value : Option V
  next : PageLink
  prev : Option Addr

/-- `rqueue_mode_t`. -/
inductive RQueueMode where
  | blocking
  | overwrite
  deriving DecidableEq

/-- `rqueue_t`.  `freed` records the values passed to the free callback. -/
structure RQueue (V : Type) where
  pages : Heap (RQueuePage V)
  head : Addr
  tail : Addr
  commit : Addr
  reader : Addr
  freeValueCb : Bool
  size : ℕ
  mode : RQueueMode
  writes : UInt64
  reads : UInt64
  isEmpty : Bool
  freed : List V

namespace RQueue

variable {V : Type}

/-- `RQUEUE_MIN_SIZE`. -/
def minSize : ℕ := 2

/-- `RQUEUE_READER_MAX_RETRIES`. -/
def readerMaxRetries : ℕ := 1500

/-- `RQUEUE_WRITER_CAS_MAX_RETRIES`. -/
def writerCasMaxRetries : ℕ := 100

/-- `RQUEUE_BLOCKING_MAX_RETRIES`. -/
def blockingMaxRetries : ℕ := 2000

/-- `RQUEUE_FLAG_ON(addr, RQUEUE_FLAG_HEAD)`. -/
def flagOn (link : PageLink) : PageLink := { link with head := true }

/-- The clean link to a page. -/
def linkTo (page : Addr) : PageLink := ⟨some page, false⟩

/-- A link used as a page pointer; a flagged or null one points to no page. -/
def asPage (link : PageLink) : Option Addr :=
  if link.head then none else link.page

/-- Store a value in a field if the field holds the expected one. -/
def casNext (pages : Heap (RQueuePage V)) (page : Addr) (expected new : PageLink) :
    Option (Heap (RQueuePage V) × Bool) := do
  let p ← pages page
  if p.next = expected then
    some (pages.put page { p with next := new }, true)
  else
    some (pages, false)

/-! ## Creation -/

/-- The pages linked so far by `rqueue_create`. -/
structure PageChain (V : Type) where
  pages : Heap (RQueuePage V)
  head : Option Addr
  tail : Option Addr

/-- One round of the allocation loop of `rqueue_create`. -/
def addPage (c : PageChain V) : Option (PageChain V) := do
  let r := c.pages.alloc { value := none, next := ⟨none, false⟩, prev := none }
  match c.head, c.tail with
  | none, _ =>
      let pages ← r.1.modify r.2 fun p => { p with prev := some r.2 }
      some { pages := pages, head := some r.2, tail := some r.2 }
  | some head, some tail => do
      let pages ← r.1.modify tail fun p => { p with next := linkTo r.2 }
      let pages ← pages.modify r.2 fun p => { p with prev := some tail }
      some { pages := pages, head := some head, tail := some r.2 }
  | some head, none => do
      let pages ← r.1.modify r.2 fun p => { p with prev := none }
      some { pages := pages, head := some head, tail := some r.2 }

/-- The allocation loop of `rqueue_create`. -/
def addPages : ℕ → PageChain V → Option (PageChain V)
  | 0, c => some c
  | n + 1, c => do
      let c ← addPage c
      addPages n c

/-- `rqueue_create`. -/
def rqueueCreate (size : ℕ) (mode : RQueueMode) : Option (RQueue V) := do
  let size := if minSize < size then size else minSize
  let c ← addPages (size + 1) { pages := Heap.empty, head := none, tail := none }
  let head ← c.head
  let tail ← c.tail
  let pages ← c.pages.modify head fun p => { p with prev := some tail }
  let pages ← pages.modify tail fun p => { p with next := flagOn (linkTo head) }
  let first ← pages head
  let r := pages.alloc { value := none, next := linkTo head, prev := first.prev }
  some {
    pages := r.1
    head := head
    tail := head
    commit := head
    reader := r.2
    freeValueCb := false
    size := size
    mode := mode
    writes := 0
    reads := 0
    isEmpty := true
    freed := [] }

/-- `rqueue_set_free_value_callback`. -/
def rqueueSetFreeValueCallback (rb : RQueue V) (cb : Bool) : RQueue V :=
  { rb with freeValueCb := cb }

/-- Pass a value to the free callback, if both are there. -/
def callFreeValueCb (rb : RQueue V) (value : Option V) : RQueue V :=
  if rb.freeValueCb then { rb with freed := rb.freed ++ value.toList } else rb

/-! ## Reading -/

/-- The body of the loop of `rqueue_read` once the queue is known not to be
empty: link the reader page in the place of the head.  The result is the value
found, or none if the round failed. -/
def swapReader (rb : RQueue V) : Option (RQueue V × Option V) := do
  let head := rb.head
  let h ← rb.pages head
  let r ← rb.pages rb.reader
  let pages := rb.pages.put rb.reader { r with next := flagOn h.next, prev := h.prev }
  let before ← h.prev
  let (pages, swapped) ← casNext pages before (flagOn (linkTo head)) (linkTo rb.reader)
  if swapped then do
    let next ← asPage h.next
    let pages ← pages.modify next fun p => { p with prev := some rb.reader }
    let out ← pages head
    let rb := { rb with pages := pages, head := next, reader := head }
    match out.value with
    | none => some (rb, none)
    | some v =>
        let rb := { rb with
          pages := pages.put head { out with value := none }
          reads := rb.reads + 1 }
        some ({ rb with isEmpty := rb.isEmpty || decide (rb.head = rb.tail) }, some v)
  else do
    -- The reader page gets its old next pointer back.
    let pages ← pages.modify rb.reader fun p => { p with next := r.next }
    some ({ rb with pages := pages }, none)

/-- The loop of `rqueue_read`. -/
def readLoop : ℕ → RQueue V → Option (RQueue V × Option V)
  | 0, rb => some (rb, none)
  | n + 1, rb =>
      if rb.reader = rb.commit ∨ rb.isEmpty then
        readLoop n rb
      else do
        let (rb, v) ← swapReader rb
        match v with
        | some v => some (rb, some v)
        | none => readLoop n rb

/-- `rqueue_read`. -/
def rqueueRead (rb : RQueue V) : Option (RQueue V × Option V) :=
  readLoop readerMaxRetries rb

/-! ## Writing -/

/-- `rqueue_update_value`. -/
def rqueueUpdateValue (rb : RQueue V) (page : Addr) (value : V) : Option (RQueue V) := do
  let p ← rb.pages page
  let rb := { rb with pages := rb.pages.put page { p with value := some value } }
  some (rb.callFreeValueCb p.value)

/-- The overwrite step of `rqueue_write`: move the head, and its flag, one page
on. -/
def advanceHead (rb : RQueue V) (tail : Addr) : Option (RQueue V) := do
  let h ← rb.pages rb.head
  let (pages, flagged) ←
    casNext rb.pages rb.head ⟨h.next.page, false⟩ (flagOn h.next)
  if flagged then do
    let (pages, _) ← casNext pages tail (flagOn (linkTo rb.head)) (linkTo rb.head)
    let next ← h.next.page
    some { rb with pages := pages, head := next }
  else
    some { rb with pages := pages }

/-- How a round of the loop of `rqueue_write` ends: with a return code, with
`continue` and a new retry count, or with the page to write. -/
inductive Round where
  | ret (rc : ℤ)
  | again (retries : ℕ)
  | won (tail : Addr)

/-- The test `commit->next == temp_page`, made in overwrite mode only. -/
def commitBefore (rb : RQueue V) (page : Addr) : Option Bool :=
  match rb.mode with
  | .blocking => some false
  | .overwrite => do
      let c ← rb.pages rb.commit
      some (c.next = linkTo page)

/-- One round of the loop of `rqueue_write`. -/
def writeRound (rb : RQueue V) (retries : ℕ) : Option (RQueue V × Round) := do
  let temp := rb.tail
  let p ← rb.pages temp
  match p.next.page with
  | none => some (rb, .ret (-1))
  | some next =>
      if rb.mode = .blocking ∧ rb.commit = temp ∧ temp ≠ rb.head ∧ next ≠ rb.head then
        if retries < blockingMaxRetries then
          some ({ rb with tail := next }, .again (retries + 1))
        else
          some (rb, .ret (-2))
      else if p.next.head ∨ (next = rb.head ∧ ¬ rb.isEmpty) then do
        if ← rb.commitBefore temp then do
          let rb ← rb.advanceHead temp
          some (rb, .again retries)
        else if retries < writerCasMaxRetries then
          some (rb, .again (retries + 1))
        else
          some (rb, .ret (-2))
      else
        some ({ rb with tail := next }, .won temp)

/-- The loop of `rqueue_write`, whose condition counts a retry after every
`continue`.  The first argument bounds the rounds; the retry count ends the loop
before that. -/
def writeLoop : ℕ → ℕ → RQueue V → Option (RQueue V × (ℤ ⊕ Addr))
  | 0, _, _ => none
  | n + 1, retries, rb => do
      let (rb, round) ← rb.writeRound retries
      match round with
      | .ret rc => some (rb, .inl rc)
      | .won tail => some (rb, .inr tail)
      | .again retries =>
          if retries < writerCasMaxRetries then
            writeLoop n (retries + 1) rb
          else
            some (rb, .inl (-1))

/-- `rqueue_write`. -/
def rqueueWrite (rb : RQueue V) (value : V) : Option (RQueue V × ℤ) := do
  let (rb, out) ← writeLoop (writerCasMaxRetries + 1) 0 rb
  match out with
  | .inl rc => some (rb, rc)
  | .inr tail => do
      let rb ← rb.rqueueUpdateValue tail value
      some ({ rb with writes := rb.writes + 1, isEmpty := false, commit := tail }, 0)

/-! ## The rest of the interface -/

/-- `rqueue_isempty`. -/
def rqueueIsempty (rb : RQueue V) : ℤ := if rb.isEmpty then 1 else 0

/-- `rqueue_set_mode`. -/
def rqueueSetMode (rb : RQueue V) (mode : RQueueMode) : RQueue V :=
  { rb with mode := mode }

/-- `rqueue_destroy_page`. -/
def rqueueDestroyPage (rb : RQueue V) (page : Addr) : Option (RQueue V) := do
  let p ← rb.pages page
  let pages ← rb.pages.free page
  some ({ rb with pages := pages }.callFreeValueCb p.value)

/-- The loop of `rqueue_destroy`.  It frees a page in every round, so it cannot
make more rounds than there are pages. -/
def destroyLoop : ℕ → Addr → RQueue V → Option (RQueue V)
  | 0, _, _ => none
  | n + 1, page, rb => do
      let p ← rb.pages page
      let next ← p.next.page
      let rb ← rb.rqueueDestroyPage page
      if next = rb.head then some rb else destroyLoop n next rb

/-- `rqueue_destroy`; the result lists all values ever passed to the free
callback. -/
def rqueueDestroy (rb : RQueue V) : Option (List V) := do
  let rb ← destroyLoop rb.pages.brk rb.head rb
  let rb ← rb.rqueueDestroyPage rb.reader
  some rb.freed

end RQueue
end LibHL
