import LibHL.RefCnt.Model

/-!
# The lock-free queue

The functions of `queue.c` as programs of atomic steps.  The pool of entries for
reuse is not set up, so that the callback of the reference counts frees an entry.
`sched_yield` does nothing.
-/

namespace LibHL

/-- `queue_entry_t`; its links are cells of the reference counts. -/
structure QueueEntry (V : Type) where
  node : Addr
  value : Option V
deriving DecidableEq, Repr

/-- The links of an entry. -/
inductive Dir where
  | prev
  | next
deriving DecidableEq, Repr

/-- What the pops at one end have done: the entries they have marked for themselves,
how often they have decremented the length, and the values they have returned. -/
structure PopHistory (V : Type) where
  claims : List Addr
  decrements : ℕ
  returned : List V
deriving DecidableEq, Repr

/-- The part of `queue_t` that the reference counts do not know.  `history` records
the pops at each end; it is named by the link that leads away from the end. -/
structure QueueData (V : Type) where
  entries : Heap (QueueEntry V)
  head : Addr
  tail : Addr
  length : ℕ
  history : Dir → PopHistory V

/-- `queue_t`. -/
abbrev Queue (V : Type) := RefCnt (Addr × Dir) Addr (QueueData V)

namespace Queue

open RefCnt

variable {V : Type}

/-- `queue_reusable_entry`, without a pool. -/
def queueReusableEntry (entry : Addr) (q : Queue V) : Option (Queue V) :=
  (q.ext.entries.free entry).map fun entries =>
    { q with
      links := Function.update (Function.update q.links (entry, .prev) none) (entry, .next) none
      ext := { q.ext with entries := entries } }

/-! ## Fields -/

/-- `ATOMIC_READ(entry->node)`. -/
def readNode (entry : Addr) : Prog (Queue V) Addr :=
  .atomic fun q => (q.ext.entries entry).map fun e => (q, e.node)

/-- `entry->value`. -/
def readValue (entry : Addr) : Prog (Queue V) (Option V) :=
  .atomic fun q => (q.ext.entries entry).map fun e => (q, e.value)

/-- `ATOMIC_READ(q->head)`. -/
def readHead : Prog (Queue V) Addr := .atomic fun q => some (q, q.ext.head)

/-- `ATOMIC_READ(q->tail)`. -/
def readTail : Prog (Queue V) Addr := .atomic fun q => some (q, q.ext.tail)

/-- The number of values of a `size_t`. -/
def SIZE_RANGE : ℕ := 2 ^ 64

/-- `ATOMIC_INCREMENT(q->length)`. -/
def incrementLength : Prog (Queue V) Unit :=
  .atomic fun q => some ({ q with ext := { q.ext with length := q.ext.length + 1 } }, ())

/-- Add to the history of the pops at one end. -/
def record (away : Dir) (f : PopHistory V → PopHistory V) (data : QueueData V) : QueueData V :=
  { data with history := Function.update data.history away (f (data.history away)) }

/-- The history after a decrement of the length. -/
def decremented (h : PopHistory V) : PopHistory V := { h with decrements := h.decrements + 1 }

/-- The history after an entry was marked. -/
def claimed (entry : Addr) (h : PopHistory V) : PopHistory V :=
  { h with claims := h.claims ++ [entry] }

/-- `ATOMIC_DECREMENT(q->length)`, which wraps at zero. -/
def decrementLength (away : Dir) : Prog (Queue V) Unit :=
  .atomic fun q =>
    let length := if q.ext.length = 0 then SIZE_RANGE - 1 else q.ext.length - 1
    some ({ q with ext := record away decremented { q.ext with length := length } }, ())

/-! ## Entries -/

/-- The `calloc` of `create_entry`, together with the entry's node and value. -/
def allocEntry (value : Option V) : Prog (Queue V) Addr :=
  .atomic fun q =>
    let entry := q.ext.entries.brk
    match (newNode entry).run q with
    | none => none
    | some (q, node) =>
        let r := q.ext.entries.alloc { node := node, value := value }
        some ({ q with
          links := Function.update (Function.update q.links (entry, .prev) (some null))
            (entry, .next) (some null)
          ext := { q.ext with entries := r.1 } }, entry)

section Loops

variable (bound : ℕ)

/-- `release_ref`. -/
abbrev release (node : Addr) : Prog (Queue V) Unit := releaseRef bound queueReusableEntry node

/-- `retain_ref`, where the result is not used. -/
def retain (node : Addr) : Prog (Queue V) Unit := do
  let _ ← retainRef node
  pure ()

/-- `store_ref`. -/
abbrev store (a : Addr × Dir) (ref : Option Addr) : Prog (Queue V) Unit :=
  storeRef bound queueReusableEntry a ref

/-- `queue_init`. -/
def queueInit : Prog (Queue V) Unit := do
  let head ← allocEntry none
  let tail ← allocEntry none
  Prog.atomic fun q => some ({ q with ext := { q.ext with head := head, tail := tail } }, ())
  store bound (head, .next) (some (← readNode tail))
  store bound (tail, .prev) (some (← readNode head))

/-! ## Pushing

`queue_push_left` and `queue_push_right` are mirror images, and so are the pops up
to one test.  `away` is the link that leads away from the end an operation works
on: `next` on the left, `prev` on the right. -/

/-- The link in the other direction. -/
def back : Dir → Dir
  | .prev => .next
  | .next => .prev

/-- The sentinel at the end that `away` leads away from. -/
def readEnd : Dir → Prog (Queue V) Addr
  | .next => readHead
  | .prev => readTail

/-- The loop that links the entry behind the sentinel; it returns the neighbour. -/
def linkEnd (away : Dir) (entry sentinel : Addr) : ℕ → Addr → Prog (Queue V) Addr
  | 0, _ => .stop
  | n + 1, neighbour => do
      let expected ← readNode neighbour
      let new ← readNode entry
      if ← casLink (sentinel, away) (refTo expected) (refTo new) then
        pure neighbour
      else do
        release bound (← readNode neighbour)
        match ← getNodePtr (← derefLink (sentinel, away)) with
        | none => .stop
        | some neighbour => do
            store bound (entry, away) (some (← readNode neighbour))
            linkEnd away entry sentinel n neighbour

/-- The loop of `queue_push_left` and `queue_push_right`. -/
def pushLoop (away : Dir) (entry sentinel : Addr) : ℕ → Prog (Queue V) Unit
  | 0 => .stop
  | n + 1 => do
      match ← getNodePtr (← derefLink (sentinel, away)) with
      | none => pushLoop away entry sentinel n
      | some neighbour => do
          store bound (entry, back away) (some (← readNode sentinel))
          store bound (entry, away) (some (← readNode neighbour))
          let expected ← readLink (entry, back away)
          let new ← readNode entry
          if ← casLink (neighbour, back away) (markOff expected) (refTo new) then
            release bound (← readNode sentinel)
            retain (← readNode entry)
            let neighbour ← linkEnd bound away entry sentinel bound neighbour
            release bound (← readNode neighbour)
            retain (← readNode entry)
            release bound (← readNode neighbour)
          else do
            release bound (← readNode neighbour)
            store bound (entry, .next) none
            store bound (entry, .prev) none
            pushLoop away entry sentinel n

/-- `queue_push_left` and `queue_push_right`. -/
def push (away : Dir) (value : V) : Prog (Queue V) Unit := do
  let entry ← allocEntry (some value)
  let sentinel ← readEnd away
  pushLoop bound away entry sentinel bound
  incrementLength

/-- `queue_push_left`. -/
def queuePushLeft (value : V) : Prog (Queue V) Unit := push bound .next value

/-- `queue_push_right`. -/
def queuePushRight (value : V) : Prog (Queue V) Unit := push bound .prev value

/-! ## Popping -/

/-- The compare-and-swap that marks an entry for the pop that performs it. -/
def claim (away : Dir) (entry : Addr) (link : Ref) : Prog (Queue V) Bool :=
  .atomic fun q => (q.links (entry, away)).map fun r =>
    if r = markOff link then
      ({ q with
        links := Function.update q.links (entry, away) (some (markOn link))
        ext := record away (claimed entry) q.ext }, true)
    else
      (q, false)

/-- The loop of `queue_pop_left` that marks the other link, which waits while that
link is null. -/
def markPrev (entry : Addr) : ℕ → Prog (Queue V) Unit
  | 0 => .stop
  | n + 1 => do
      let link ← readLink (entry, .prev)
      if link = null then
        markPrev entry n
      else if ← casLink (entry, .prev) link (markOn link) then
        pure ()
      else
        markPrev entry n

/-- The loop of `queue_pop_right` that marks the other link. -/
def markNext (entry : Addr) : ℕ → Prog (Queue V) Unit
  | 0 => .stop
  | n + 1 => do
      let link ← readLink (entry, .next)
      if ← casLink (entry, .next) link (markOn link) then pure () else markNext entry n

/-- The loop that leads the neighbour's link past the entry; it returns the
neighbour. -/
def bypass (away : Dir) (entry sentinel : Addr) :
    ℕ → Option Addr → Prog (Queue V) Addr
  | 0, _ => .stop
  | n + 1, previous => do
      if let some neighbour := previous then
        release bound (← readNode neighbour)
      match ← getNodePtr (← derefLinkD (entry, away)) with
      | none => bypass away entry sentinel n none
      | some neighbour => do
          let expected ← readNode entry
          let new ← readNode sentinel
          if ← casLink (neighbour, back away) (refTo expected) (refTo new) then
            pure neighbour
          else
            bypass away entry sentinel n (some neighbour)

/-- What a pop does with an entry it has claimed, up to the end of its loop. -/
def unlink (away : Dir) (markRest : Addr → ℕ → Prog (Queue V) Unit) (entry sentinel : Addr) :
    Prog (Queue V) (Option V) := do
  markRest entry bound
  let neighbour ← bypass bound away entry sentinel bound none
  release bound (← readNode entry)
  retain (← readNode sentinel)
  let expected ← readNode entry
  let new ← readNode neighbour
  if ← casLink (sentinel, away) (refTo expected) (refTo new) then
    release bound (← readNode entry)
    retain (← readNode neighbour)
  release bound (← readNode neighbour)
  let value ← readValue entry
  release bound (← readNode entry)
  pure value

/-- The loop of `queue_pop_left` and `queue_pop_right`; it returns the entry and its
value, or none if the queue is empty. -/
def popLoop (away : Dir) (markRest : Addr → ℕ → Prog (Queue V) Unit) (sentinel : Addr) :
    ℕ → Prog (Queue V) (Option (Addr × Option V))
  | 0 => .stop
  | n + 1 => do
      let entryNode ← derefLink (sentinel, away)
      match ← getNodePtr entryNode with
      | none => pure none
      | some entry => do
          if entry = (← readEnd (back away)) then
            if let some node := entryNode then
              release bound node
            pure none
          else do
            let r ← readLink (entry, back away)
            let node ← readNode sentinel
            if r ≠ refTo node then
              release bound (← readNode entry)
              popLoop away markRest sentinel n
            else do
              let link ← readLink (entry, away)
              if link.node = none then
                release bound (← readNode entry)
                popLoop away markRest sentinel n
              else if ← claim away entry link then
                let value ← unlink bound away markRest entry sentinel
                pure (some (entry, value))
              else do
                release bound (← readNode entry)
                popLoop away markRest sentinel n

/-- `queue_pop_left` and `queue_pop_right`. -/
def pop (away : Dir) (markRest : Addr → ℕ → Prog (Queue V) Unit) :
    Prog (Queue V) (Option V) := do
  let sentinel ← readEnd away
  match ← popLoop bound away markRest sentinel bound with
  | none => pure none
  | some (entry, value) => do
      decrementLength away
      store bound (entry, .next) none
      store bound (entry, .prev) none
      release bound (← readNode entry)
      pure value

/-- `queue_pop_left`. -/
def queuePopLeft : Prog (Queue V) (Option V) := pop bound .next markPrev

/-- `queue_pop_right`. -/
def queuePopRight : Prog (Queue V) (Option V) := pop bound .prev markNext

end Loops

/-- The state of a new queue before `queue_init`. -/
def blank : Queue V :=
  refcntCreate (2 ^ 10) (fun _ => none)
    { entries := Heap.empty, head := 0, tail := 0, length := 0, history := fun _ => ⟨[], 0, []⟩ }

/-- `queue_count`. -/
def queueCount (q : Queue V) : ℕ := q.ext.length

end Queue
end LibHL
