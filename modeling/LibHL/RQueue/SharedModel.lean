import LibHL.RQueue.Model
import LibHL.Support.Atomic

/-!
# The ring queue of `rqueue.c`, with threads

`rqueue_read` and `rqueue_write` as programs of atomic steps: each atomic builtin, and
each plain access to a shared field, is one step.  The retry statistics and the
back-off delays are left out.  The two loops count their retries as the source does;
the loops that wait for `write_sync`, or replace a value, have a bound.

The log only records what the threads do.  It counts the pages that the reader takes
out of the ring and the moves of the head and the reader pointer that follow, the
values stored, the times the queue was marked as not empty and the commits; and it
lists the values for which the tail was moved, those whose write returned `0`, and
those that a read returned.
-/

namespace LibHL

/-- What the threads have done so far. -/
structure RQueueLog (V : Type) where
  swaps : ℕ
  headMoves : ℕ
  readerMoves : ℕ
  stored : ℕ
  cleared : ℕ
  commits : ℕ
  advanced : List V
  completed : List V
  returned : List V

/-- `rqueue_t` with the fields that only matter to threads. -/
structure SharedRQueue (V : Type) extends RQueue V where
  readSync : Bool
  writeSync : Bool
  numWriters : ℕ
  log : RQueueLog V

namespace SharedRQueue

open RQueue

variable {V : Type}

/-- A queue that no thread uses yet. -/
def ofRQueue (rb : RQueue V) : SharedRQueue V :=
  { rb with
    readSync := false
    writeSync := false
    numWriters := 0
    log := {
      swaps := 0
      headMoves := 0
      readerMoves := 0
      stored := 0
      cleared := 0
      commits := 0
      advanced := []
      completed := []
      returned := [] } }

/-! ## Steps -/

/-- Read a field of the queue. -/
def get {β : Type} (f : SharedRQueue V → β) : Prog (SharedRQueue V) β :=
  .atomic fun s => some (s, f s)

/-- Change the queue. -/
def modify (f : SharedRQueue V → SharedRQueue V) : Prog (SharedRQueue V) Unit :=
  .atomic fun s => some (f s, ())

/-- Read a field of a page. -/
def readPage {β : Type} (page : Addr) (f : RQueuePage V → β) : Prog (SharedRQueue V) β :=
  .atomic fun s => (s.pages page).map fun p => (s, f p)

/-- `page->next`. -/
def readNext (page : Addr) : Prog (SharedRQueue V) PageLink := readPage page RQueuePage.next

/-- Store into a page. -/
def writePage (page : Addr) (f : RQueuePage V → RQueuePage V) : Prog (SharedRQueue V) Unit :=
  .atomic fun s => (s.pages page).map fun p => ({ s with pages := s.pages.put page (f p) }, ())

/-- `ATOMIC_CAS(page->next, expected, new)`; `note` is what a success adds to the log. -/
def casNextOf (page : Addr) (expected new : PageLink) (note : RQueueLog V → RQueueLog V) :
    Prog (SharedRQueue V) Bool :=
  .atomic fun s => (casNext s.pages page expected new).map fun r =>
    ({ s with pages := r.1, log := if r.2 then note s.log else s.log }, r.2)

/-- `ATOMIC_CAS(rb->read_sync, 0, 1)`. -/
def lockRead : Prog (SharedRQueue V) Bool :=
  .atomic fun s =>
    if s.readSync then some (s, false) else some ({ s with readSync := true }, true)

/-- `ATOMIC_CAS(rb->read_sync, 1, 0)`; a read that returns a value ends with it. -/
def unlockRead (value : Option V) : Prog (SharedRQueue V) Unit :=
  modify fun s => { s with
    readSync := false
    log := { s.log with returned := s.log.returned ++ value.toList } }

/-- `ATOMIC_CAS(rb->write_sync, 0, 1)`. -/
def lockWrite : Prog (SharedRQueue V) Bool :=
  .atomic fun s =>
    if s.writeSync then some (s, false) else some ({ s with writeSync := true }, true)

/-- `ATOMIC_CAS(rb->write_sync, 1, 0)`; a write that returns `0` ends with it. -/
def unlockWrite (value : Option V) : Prog (SharedRQueue V) Unit :=
  modify fun s => { s with
    writeSync := false
    log := { s.log with completed := s.log.completed ++ value.toList } }

/-! ## Reading -/

/-- `rqueue_validate_reader_snapshot`. -/
def validateReaderSnapshot (head commit : Addr) (next : PageLink) :
    Prog (SharedRQueue V) Bool := do
  if (← get fun s => s.head) = head then
    if (← get fun s => s.commit) = commit then
      pure ((← readNext head) = next)
    else
      pure false
  else
    pure false

/-- Give up a round: the reader page gets its old next pointer back. -/
def restoreReader (oldNext : PageLink) : Prog (SharedRQueue V) (Option V) := do
  let reader ← get fun s => s.reader
  writePage reader fun p => { p with next := oldNext }
  unlockRead none
  pure none

/-- `ATOMIC_CAS(rb->head, head, next)`. -/
def casHead (head next : Addr) : Prog (SharedRQueue V) Unit :=
  modify fun s =>
    if s.head = head then
      { s with head := next, log := { s.log with headMoves := s.log.headMoves + 1 } }
    else
      s

/-- `rb->reader = head`. -/
def storeReader (head : Addr) : Prog (SharedRQueue V) Unit :=
  modify fun s => { s with
    reader := head
    log := { s.log with readerMoves := s.log.readerMoves + 1 } }

/-- Mark the queue as empty if the head and the tail agree. -/
def markEmpty : Prog (SharedRQueue V) Unit := do
  let headSnap ← get fun s => s.head
  let tailSnap ← get fun s => s.tail
  if headSnap = tailSnap then
    if (← get fun s => s.head) = headSnap then
      if (← get fun s => s.tail) = tailSnap then
        modify fun s => { s with isEmpty := true }

section Values

variable [DecidableEq V]

/-- `ATOMIC_CAS(page->value, expected, new)`; `note` is what a success adds to the log. -/
def casValue (page : Addr) (expected new : Option V) (note : RQueueLog V → RQueueLog V) :
    Prog (SharedRQueue V) Bool :=
  .atomic fun s => (s.pages page).map fun p =>
    if p.value = expected then
      ({ s with pages := s.pages.put page { p with value := new }, log := note s.log }, true)
    else
      (s, false)

/-- The rest of a round of `rqueue_read` once the reader page is in the ring. -/
def takeHead (head : Addr) (next : PageLink) : Prog (SharedRQueue V) (Option V) := do
  match asPage next with
  | none => .stop
  | some next => do
      casHead head next
      let reader ← get fun s => s.reader
      writePage next fun p => { p with prev := some reader }
      storeReader head
      let reader ← get fun s => s.reader
      match ← readPage reader RQueuePage.value with
      | none => do
          unlockRead none
          pure none
      | some v => do
          let reader ← get fun s => s.reader
          let _ ← casValue reader (some v) none id
          modify fun s => { s with reads := s.reads + 1 }
          markEmpty
          unlockRead (some v)
          pure (some v)

/-- The part of a round of `rqueue_read` that changes the ring. -/
def swapHead (head : Addr) (next oldNext : PageLink) : Prog (SharedRQueue V) (Option V) := do
  let reader ← get fun s => s.reader
  if ← casNextOf reader oldNext (flagOn next) id then
    let reader ← get fun s => s.reader
    let prev ← readPage head RQueuePage.prev
    writePage reader fun p => { p with prev := prev }
    if (← get fun s => s.head) = head then
      match ← readPage head RQueuePage.prev with
      | none => .stop
      | some before => do
          let reader ← get fun s => s.reader
          if ← casNextOf before (flagOn (linkTo head)) (linkTo reader)
              fun log => { log with swaps := log.swaps + 1 } then
            takeHead head next
          else
            restoreReader oldNext
    else
      restoreReader oldNext
  else do
    unlockRead none
    pure none

/-- A round of `rqueue_read` that has `read_sync`. -/
def readRound : Prog (SharedRQueue V) (Option V) := do
  let head ← get fun s => s.head
  let commit ← get fun s => s.commit
  let next ← readNext head
  let oldNext ← readNext (← get fun s => s.reader)
  if (← get fun s => s.reader) = commit then do
    unlockRead none
    pure none
  else if ← get fun s => s.isEmpty then do
    unlockRead none
    pure none
  else if ← validateReaderSnapshot head commit next then
    swapHead head next oldNext
  else do
    unlockRead none
    pure none

/-- The loop of `rqueue_read`. -/
def sharedReadLoop : ℕ → Prog (SharedRQueue V) (Option V)
  | 0 => pure none
  | n + 1 => do
      if ← lockRead then
        match ← readRound with
        | some v => pure (some v)
        | none => sharedReadLoop n
      else
        sharedReadLoop n

/-- `rqueue_read`. -/
def rqueueRead : Prog (SharedRQueue V) (Option V) := sharedReadLoop readerMaxRetries

end Values

/-! ## Writing -/

/-- `ATOMIC_DECREMENT(rb->num_writers)`, and give up `write_sync`. -/
def leaveWrite (value : Option V) : Prog (SharedRQueue V) Unit := do
  modify fun s => { s with numWriters := s.numWriters - 1 }
  unlockWrite value

/-- Wait for `write_sync`, and `ATOMIC_INCREMENT(rb->num_writers)`. -/
def enterWrite : ℕ → Prog (SharedRQueue V) Unit
  | 0 => .stop
  | n + 1 => do
      if ← lockWrite then
        modify fun s => { s with numWriters := s.numWriters + 1 }
      else
        enterWrite n

/-- How a round of the loop of `rqueue_write` ends: with a return code, or with the
values of `retries`, `temp_page` and `tail` at the condition of the loop. -/
inductive SharedRound where
  | ret (rc : ℤ)
  | next (retries : ℕ) (temp : Addr) (tail : Option Addr)

/-- `ATOMIC_CAS_RETURN(rb->tail, temp_page, next_page)`, made for a value. -/
def casTail (temp next : Addr) (value : Option V) : Prog (SharedRQueue V) Addr :=
  .atomic fun s =>
    if s.tail = temp then
      some ({ s with
        tail := next
        log := { s.log with advanced := s.log.advanced ++ value.toList } }, temp)
    else
      some (s, s.tail)

/-- Let the other thread run, and try again unless there were too many retries. -/
def retryWrite (bound maxRetries retries : ℕ) (temp : Addr) (tail : Option Addr) :
    Prog (SharedRQueue V) SharedRound := do
  if retries < maxRetries then
    leaveWrite none
    enterWrite bound
    pure (.next (retries + 1) temp tail)
  else do
    leaveWrite none
    pure (.ret (-2))

/-- The test whether an overwriting write can take the place of the oldest value, which
takes `read_sync` in that case. -/
def lockForOverwrite (commit temp : Addr) : Prog (SharedRQueue V) Bool := do
  if (← get fun s => s.mode) = .overwrite then
    if (← readNext commit) = linkTo temp then lockRead else pure false
  else
    pure false

/-- The overwrite step of `rqueue_write`, which has `read_sync`. -/
def overwriteHead (head commit temp : Addr) : Prog (SharedRQueue V) Unit := do
  let currentHead ← get fun s => s.head
  let currentCommit ← get fun s => s.commit
  if currentHead = head ∧ currentCommit = commit then
    let nextpp := (← readNext currentHead).page
    if nextpp = (← readNext head).page then
      if ← casNextOf currentHead ⟨nextpp, false⟩ ⟨nextpp, true⟩ id then
        let _ ← casNextOf temp (flagOn (linkTo currentHead)) (linkTo currentHead) id
        match nextpp with
        | none => Prog.stop
        | some next => modify fun s => { s with head := next }
  unlockRead none

/-- Whether the ring has no room: the next pointer has the flag, or it leads to the head
of a queue that is not empty. -/
def noRoom (head temp next : Addr) : Prog (SharedRQueue V) Bool := do
  if (← readNext temp).head then
    pure true
  else if next = head then
    pure (! (← get fun s => s.isEmpty))
  else
    pure false

/-- The end of a round of the loop of `rqueue_write`. -/
def moveTail (bound retries : ℕ) (value : V) (head commit temp next : Addr)
    (tail : Option Addr) : Prog (SharedRQueue V) SharedRound := do
  if ← noRoom head temp next then
    if ← lockForOverwrite commit temp then
      overwriteHead head commit temp
      pure (.next retries temp tail)
    else
      retryWrite bound writerCasMaxRetries retries temp tail
  else if (← readNext temp).head then
    pure (.next retries temp tail)
  else do
    let old ← casTail temp next (some value)
    pure (.next retries temp (some old))

/-- One round of the loop of `rqueue_write`. -/
def sharedWriteRound (bound retries : ℕ) (value : V) (tail : Option Addr) :
    Prog (SharedRQueue V) SharedRound := do
  let temp ← get fun s => s.tail
  let commit ← get fun s => s.commit
  match (← readNext temp).page with
  | none => do
      leaveWrite none
      pure (.ret (-1))
  | some next => do
      let head ← get fun s => s.head
      if (← get fun s => s.commit) = commit then
        if (← get fun s => s.tail) = temp then
          if (← get fun s => s.mode) = .blocking ∧ commit = temp ∧ temp ≠ head ∧ next ≠ head then
            if retries < blockingMaxRetries then
              let _ ← casTail temp next none
            retryWrite bound blockingMaxRetries retries temp tail
          else
            moveTail bound retries value head commit temp next tail
        else
          pure (.next retries temp tail)
      else
        pure (.next retries temp tail)

/-- The loop of `rqueue_write`.  The first argument bounds the rounds; the retry count
ends the loop before that. -/
def sharedWriteLoop (bound : ℕ) (value : V) :
    ℕ → ℕ → Option Addr → Prog (SharedRQueue V) (ℤ ⊕ Addr)
  | 0, _, _ => .stop
  | n + 1, retries, tail => do
      match ← sharedWriteRound bound retries value tail with
      | .ret rc => pure (.inl rc)
      | .next retries temp tail =>
          if tail = some temp then
            pure (.inr temp)
          else if retries < writerCasMaxRetries then
            sharedWriteLoop bound value n (retries + 1) tail
          else do
            leaveWrite none
            pure (.inl (-1))

section Values

variable [DecidableEq V]

/-- `rqueue_update_value`. -/
def rqueueUpdateValue (page : Addr) (value : V) : ℕ → Prog (SharedRQueue V) Unit
  | 0 => .stop
  | n + 1 => do
      let old ← readPage page RQueuePage.value
      if ← casValue page old (some value) fun log => { log with stored := log.stored + 1 } then
        modify fun s =>
          if s.freeValueCb then { s with freed := s.freed ++ old.toList } else s
      else
        rqueueUpdateValue page value n

/-- `ATOMIC_CAS(rb->commit, commit, tail)`. -/
def casCommit (commit tail : Addr) : Prog (SharedRQueue V) Unit :=
  modify fun s =>
    if s.commit = commit then
      { s with commit := tail, log := { s.log with commits := s.log.commits + 1 } }
    else
      s

/-- `rqueue_write` once it has moved the tail. -/
def storeValue (bound : ℕ) (tail : Addr) (value : V) : Prog (SharedRQueue V) ℤ := do
  rqueueUpdateValue tail value bound
  modify fun s => { s with writes := s.writes + 1 }
  modify fun s => { s with
    isEmpty := false
    log := { s.log with cleared := s.log.cleared + 1 } }
  if (← get fun s => s.numWriters) = 1 then
    let commit ← get fun s => s.commit
    casCommit commit tail
  leaveWrite (some value)
  pure 0

/-- `rqueue_write`. -/
def rqueueWrite (bound : ℕ) (value : V) : Prog (SharedRQueue V) ℤ := do
  enterWrite bound
  match ← sharedWriteLoop bound value (writerCasMaxRetries + 1) 0 none with
  | .inl rc => pure rc
  | .inr tail => storeValue bound tail value

/-! ## One reader and one writer -/

/-- The two threads. -/
inductive Role where
  | reader
  | writer
deriving DecidableEq

/-- Call `rqueue_read` a number of times. -/
def readAll : ℕ → Prog (SharedRQueue V) Unit
  | 0 => pure ()
  | n + 1 => do
      let _ ← rqueueRead
      readAll n

/-- Call `rqueue_write` for one value after the other. -/
def writeAll (bound : ℕ) : List V → Prog (SharedRQueue V) Unit
  | [] => pure ()
  | value :: values => do
      let _ ← rqueueWrite bound value
      writeAll bound values

/-- What a thread does. -/
def roleProg (bound reads : ℕ) (values : List V) : Role → Prog (SharedRQueue V) Unit
  | .reader => readAll reads
  | .writer => writeAll bound values

/-- A reader and a writer on a queue. -/
def queueThreads (bound reads : ℕ) (values : List V) (rb : RQueue V) :
    Threads Role (SharedRQueue V) :=
  { state := ofRQueue rb
    progs := roleProg bound reads values }

end Values

end SharedRQueue
end LibHL
