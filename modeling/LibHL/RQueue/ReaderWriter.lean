import LibHL.RQueue.Refinement
import LibHL.RQueue.SharedReader
import LibHL.RQueue.SharedWriter

/-!
# One reader and one writer on a ring queue

Runs of `rqueue_read` in one thread and of `rqueue_write` in another one.  The writer
reads the next pointer of the tail page some steps before it moves the tail.  When the
ring is full the reader can put its page in between, and the tail then ends up on a
page that is not in the ring.  The reader looks whether the head is the tail before it
marks the queue as empty, and the writer can add a value in between.

In runs where neither happens the reader gets the values in the order of the writes,
the tail stays in the ring, and a queue that is marked as empty has no value left.
-/

namespace LibHL
namespace SharedRQueue

open RQueue Prog

variable {V : Type}

/-! ## A new queue -/

theorem create_commit {size : ℕ} {mode : RQueueMode} {rb : RQueue V}
    (h : rqueueCreate size mode = some rb) : rb.commit = rb.head ∧ rb.isEmpty = true := by
  simp only [rqueueCreate, Option.bind_eq_bind, Option.bind_eq_some_iff, Option.some.injEq] at h
  obtain ⟨_, -, _, -, _, -, _, -, _, -, _, -, rfl⟩ := h
  exact ⟨rfl, rfl⟩

section Create

variable {rb : RQueue V} {ps : List Addr} {rest : List (Option V)}

theorem pages_nodup (h : RingInv rb ps [] rest) : (rb.head :: ps ++ [rb.reader]).Nodup := by
  refine List.nodup_append.mpr ⟨h.ringed.nodup, List.nodup_singleton _, ?_⟩
  rintro a ha b hb rfl
  exact h.outside (List.mem_singleton.mp hb ▸ ha)

theorem pages_length (h : RingInv rb ps [] rest) :
    (rb.head :: ps ++ [rb.reader]).length = rb.size + 2 := by
  simp [h.length]

/-- The numbering of the pages of a ring and the reader page. -/
def ringSetting (h : RingInv rb ps [] rest) (exact : Prop) : Setting where
  size := rb.size
  two_le_size := h.minSize
  slots := Slots.ofList (rb.head :: ps ++ [rb.reader]) (pages_nodup h) (pages_length h)
    (Nat.succ_pos _)
  mode := rb.mode
  exact := exact

theorem ring_slot (h : RingInv rb ps [] rest) (exact : Prop) {i : ℕ} (hi : i ≤ rb.size) :
    (rb.head :: ps)[i]? = some ((ringSetting h exact).slot i) := by
  have hslot := Slots.getElem?_ofList (pages_nodup h) (pages_length h) (Nat.succ_pos _)
    (i := i) (by omega)
  have hlt : i < (rb.head :: ps).length := by
    rw [List.length_cons, h.length]
    omega
  rw [← List.getElem?_append_left hlt]
  exact hslot

theorem reader_slot (h : RingInv rb ps [] rest) (exact : Prop) :
    (ringSetting h exact).slot (rb.size + 1) = rb.reader := by
  have hslot := Slots.getElem?_ofList (pages_nodup h) (pages_length h) (Nat.succ_pos _)
    (i := rb.size + 1) (by omega)
  have hlast : (rb.head :: ps ++ [rb.reader])[rb.size + 1]? = some rb.reader := by
    rw [List.getElem?_append_right (by rw [List.length_cons, h.length]), List.length_cons,
      h.length, Nat.sub_self]
    rfl
  exact Option.some.inj (hslot.symm.trans hlast)

theorem nextAt_eq_of_pageLinks {pages : Heap (RQueuePage V)} {a : Addr} {l : RingLinks}
    (h : pageLinks pages a = some l) :
    nextAt pages a = some ⟨l.next, l.closing⟩ ∧ prevAt pages a = l.prev := by
  obtain ⟨p, hp, hnext, hprev⟩ := eq_some_of_pageLinks h
  rw [nextAt_eq hp, prevAt_eq hp, hnext, hprev]
  exact ⟨rfl, rfl⟩

theorem inv_ofRQueue (h : RingInv rb ps [] rest) (exact : Prop)
    (hcommit : rb.commit = rb.head) : Inv (ringSetting h exact) (ofRQueue rb) := by
  have hslot : ∀ i, i ≤ rb.size → (rb.head :: ps)[i]? = some ((ringSetting h exact).slot i) :=
    fun i hi => ring_slot h exact hi
  have hhead : rb.head = (ringSetting h exact).slot 0 :=
    Option.some.inj (hslot 0 (Nat.zero_le _))
  have hlinks : ∀ i, i ≤ rb.size → pageLinks rb.pages ((ringSetting h exact).slot i) =
      some ⟨ringNext (rb.head :: ps) i, decide (i + 1 = (rb.head :: ps).length),
        ringPrev (rb.head :: ps) i⟩ := fun i hi => h.ringed.links i _ (hslot i hi)
  have hlength : (rb.head :: ps).length = rb.size + 1 := by rw [List.length_cons, h.length]
  have hmod : ∀ j, (ringSetting h exact).slot j =
      (ringSetting h exact).slot (j % (rb.size + 2)) := by
    intro j
    rw [Setting.slot, (ringSetting h exact).slots.slot_eq_iff]
    exact (Nat.mod_mod _ _).symm
  refine {
    mode := rfl
    page := ?_
    link := ?_
    closing := ?_
    head := hhead
    reader := ?_
    tail := Option.some.inj (h.tail.symm.trans (hslot 0 (Nat.zero_le _)))
    commit := hcommit.trans hhead
    headMoves_le := Nat.le_refl _
    swaps_le_stored := Nat.le_refl _
    stored_le := Nat.le_refl _
    advanced_le := Nat.zero_le _
    commits_le := Nat.le_refl _
    swaps_le_commits := Nat.zero_le _
    not_empty := ?_
    value := fun j _ hj => absurd hj (Nat.not_lt_zero j)
    returned := List.prefix_rfl
    readerIdle := fun _ => ⟨rfl, rfl, rfl, ?_⟩
    writerIdle := fun _ => ⟨rfl, rfl, rfl, rfl, rfl⟩
    empty := fun _ _ => Or.inl rfl }
  · intro j
    rw [hmod j]
    have hlt : j % (rb.size + 2) < rb.size + 2 := Nat.mod_lt j (Nat.succ_pos _)
    by_cases hlast : j % (rb.size + 2) = rb.size + 1
    · rw [hlast, reader_slot h exact]
      obtain ⟨p, hp, -⟩ := h.reader
      exact Option.isSome_iff_exists.mpr ⟨p, hp⟩
    · obtain ⟨p, hp, -⟩ := eq_some_of_pageLinks (hlinks (j % (rb.size + 2)) (by omega))
      exact Option.isSome_iff_exists.mpr ⟨p, hp⟩
  · intro j _ hj
    have hj' : j < 0 + rb.size := hj
    have hne : ¬ j + 1 = (rb.head :: ps).length := by omega
    show nextAt rb.pages ((ringSetting h exact).slot j) = _
    rw [(nextAt_eq_of_pageLinks (hlinks j (by omega))).1, ringNext, if_neg hne,
      decide_eq_false hne, hslot (j + 1) (by omega)]
    rfl
  · have heq : rb.size + 1 = (rb.head :: ps).length := hlength.symm
    show nextAt rb.pages ((ringSetting h exact).slot (0 + rb.size)) = _
    rw [Nat.zero_add, (nextAt_eq_of_pageLinks (hlinks rb.size (Nat.le_refl _))).1, ringNext,
      if_pos heq, decide_eq_true heq, hslot 0 (Nat.zero_le _)]
    rfl
  · show rb.reader = (ringSetting h exact).slot (0 + rb.size + 1)
    rw [Nat.zero_add, reader_slot h exact]
  · intro hempty
    have htrue : rb.isEmpty = true := h.isEmpty
    rw [show (ofRQueue rb).isEmpty = rb.isEmpty from rfl, htrue] at hempty
    cases hempty
  · show prevAt rb.pages ((ringSetting h exact).slot 0) =
      some ((ringSetting h exact).slot (0 + rb.size))
    rw [Nat.zero_add, (nextAt_eq_of_pageLinks (hlinks 0 (Nat.zero_le _))).2, ringPrev,
      if_pos rfl, hlength, Nat.add_sub_cancel, hslot rb.size (Nat.le_refl _)]

end Create

/-! ## Runs -/

/-- A step that moves the tail moves it to the page to which the next pointer of the tail
page leads, without the flag. -/
def TailMovesOn (_ : Role) (s s' : SharedRQueue V) : Prop :=
  s'.tail = s.tail ∨ nextAt s.pages s.tail = some (linkTo s'.tail)

/-- A step of the reader that marks the queue as empty does so while the head is the
tail. -/
def MarksEmpty (i : Role) (s s' : SharedRQueue V) : Prop :=
  i = .reader → s'.isEmpty = true → s.isEmpty = true ∨ s.head = s.tail

/-- A step of the writer does not take `read_sync`, as it does to drop a value. -/
def DropsNothing (i : Role) (s s' : SharedRQueue V) : Prop :=
  i = .writer → s'.readSync = true → s.readSync = true

instance (i : Role) (s s' : SharedRQueue V) : Decidable (TailMovesOn i s s') :=
  inferInstanceAs (Decidable (_ ∨ _))

instance (i : Role) (s s' : SharedRQueue V) : Decidable (MarksEmpty i s s') :=
  inferInstanceAs (Decidable (_ → _))

instance (i : Role) (s s' : SharedRQueue V) : Decidable (DropsNothing i s s') :=
  inferInstanceAs (Decidable (_ → _))

/-- What each thread relies on and guarantees. -/
def specOf (c : Setting) : Role → Spec (SharedRQueue V)
  | .reader => readerSpec c
  | .writer => writerSpec c

/-- Where each thread is when it has ended. -/
def endOf : Role → SharedRQueue V → Prop
  | .reader => Outside
  | .writer => Away

section Runs

variable [DecidableEq V] {rb : RQueue V} {ps : List Addr} {rest : List (Option V)}

/-- In every run with steps as assumed, every state keeps the invariant. -/
theorem inv_of_run (h : RingInv rb ps [] rest) (exact : Prop) (hcommit : rb.commit = rb.head)
    (bound reads : ℕ) (values : List V) (schedule : List Role)
    (t : Threads Role (SharedRQueue V)) (os : List Unit)
    (hmeet : StepsMeet Threads.step (Threads.Meets (Meeting (ringSetting h exact)))
      (queueThreads bound reads values rb) schedule)
    (hrun : (queueThreads bound reads values rb).run schedule = some (t, os)) :
    Inv (ringSetting h exact) t.state := by
  have hinv := inv_ofRQueue h exact hcommit
  refine (Threads.keeps_of_run (Q := fun i _ => endOf i) (specOf (ringSetting h exact))
    ?_ ?_ ?_ ?_ schedule
    (queueThreads bound reads values rb) t os hinv ?_ hmeet hrun).1
  · intro i
    cases i with
    | reader => rfl
    | writer => rfl
  · intro i
    cases i with
    | reader => rfl
    | writer => rfl
  · intro i j hne s s' _ _ hguar
    cases i with
    | reader =>
        cases j with
        | reader => exact absurd rfl hne
        | writer => exact hguar
    | writer =>
        cases j with
        | reader => exact hguar
        | writer => exact absurd rfl hne
  · intro i
    cases i with
    | reader => exact outside_stable
    | writer => exact writerPart_stable fun w => w.writeSync = false
  · intro i
    cases i with
    | reader => exact readAll_triple reads _ rfl
    | writer => exact writeAll_triple bound values _ rfl

end Runs

section Blocking

variable [DecidableEq V]

/-- In blocking mode only the move of the tail is assumed. -/
theorem blocking_inv (size : ℕ) (rb : RQueue V) (hrb : rqueueCreate size .blocking = some rb)
    (cb : Bool) (bound reads : ℕ) (values : List V) (schedule : List Role)
    (t : Threads Role (SharedRQueue V)) (os : List Unit)
    (hmeet : StepsMeet Threads.step (Threads.Meets TailMovesOn)
      (queueThreads bound reads values (rqueueSetFreeValueCallback rb cb)) schedule)
    (hrun : (queueThreads bound reads values (rqueueSetFreeValueCallback rb cb)).run schedule =
      some (t, os)) : ∃ c : Setting, Inv c t.state := by
  obtain ⟨rb', ps, hrb', hring, -, hmode, -⟩ := rqueueCreate_eq (V := V) size .blocking
  cases hrb.symm.trans hrb'
  have hring' : RingInv (rqueueSetFreeValueCallback rb cb) ps []
      (List.replicate (rb.size + 1) none) := { hring with }
  refine ⟨ringSetting hring' False, inv_of_run hring' False (create_commit hrb).1 bound reads
    values schedule t os (hmeet.imp fun s i hs r hr => ?_) hrun⟩
  cases i with
  | reader => exact fun hfalse => hfalse.elim
  | writer =>
      refine ⟨hs r hr, fun hover => ?_⟩
      have hblocking : rb.mode = .overwrite := hover
      rw [hmode] at hblocking
      cases hblocking

/-- The values that the reader gets are, in order, the first ones for which the tail was
moved. -/
theorem reads_follow_writes (size : ℕ) (rb : RQueue V)
    (hrb : rqueueCreate size .blocking = some rb) (cb : Bool) (bound reads : ℕ)
    (values : List V) (schedule : List Role) (t : Threads Role (SharedRQueue V))
    (os : List Unit)
    (hmeet : StepsMeet Threads.step (Threads.Meets TailMovesOn)
      (queueThreads bound reads values (rqueueSetFreeValueCallback rb cb)) schedule)
    (hrun : (queueThreads bound reads values (rqueueSetFreeValueCallback rb cb)).run schedule =
      some (t, os)) : t.state.log.returned <+: t.state.log.advanced := by
  obtain ⟨c, hinv⟩ := blocking_inv size rb hrb cb bound reads values schedule t os hmeet hrun
  exact hinv.returned

end Blocking

theorem create_isSome (mode : RQueueMode) : (rqueueCreate (V := ℕ) 2 mode).isSome := by
  cases mode with
  | blocking => rfl
  | overwrite => rfl

set_option maxRecDepth 2000

/-- A new queue for two values. -/
def smallQueue (mode : RQueueMode) : RQueue ℕ := (rqueueCreate 2 mode).get (create_isSome mode)

theorem create_smallQueue (mode : RQueueMode) : rqueueCreate 2 mode = some (smallQueue mode) :=
  (Option.some_get _).symm

/-- Each thread makes a number of steps in turn. -/
def inTurns (turns : List (Role × ℕ)) : List Role :=
  turns.flatMap fun turn => List.replicate turn.2 turn.1

/-- A read of the first value, and a second write that begins before the read ends. -/
def overlapping : List Role :=
  inTurns [(.reader, 6), (.writer, 17), (.reader, 27), (.writer, 22), (.reader, 2), (.writer, 5)]

/-- A reader and a writer on a small queue with a callback. -/
def smallThreads (mode : RQueueMode) (reads : ℕ) (values : List ℕ) :
    Threads Role (SharedRQueue ℕ) :=
  queueThreads 3 reads values (rqueueSetFreeValueCallback (smallQueue mode) true)

theorem overlapping_meets :
    StepsMeet Threads.step (Threads.Meets TailMovesOn) (smallThreads .blocking 1 [1, 2])
      overlapping := by
  decide

theorem reads_follow_writes_overlapping :
    ∃ t os, (smallThreads .blocking 1 [1, 2]).run overlapping = some (t, os) ∧
      t.state.log.returned <+: t.state.log.advanced := by
  have hsome : ((smallThreads .blocking 1 [1, 2]).run overlapping).isSome := by decide
  obtain ⟨⟨t, os⟩, hrun⟩ := Option.isSome_iff_exists.mp hsome
  exact ⟨t, os, hrun, reads_follow_writes 2 _ (create_smallQueue .blocking) true 3 1 [1, 2]
    overlapping t os overlapping_meets hrun⟩

/-- The writer moves the tail past the page that the reader takes out, twice. -/
def staleTail : List Role :=
  inTurns [(.reader, 6), (.writer, 17), (.reader, 14), (.writer, 55), (.reader, 32),
    (.writer, 22), (.reader, 4), (.writer, 10), (.reader, 11)]

/-- The reader gets the first value and then the fifth one. -/
theorem staleTail_loses_values :
    ((smallThreads .blocking 2 [1, 2, 3, 4, 5]).run staleTail).map (fun r =>
      (r.1.state.log.returned, r.1.state.log.advanced)) = some ([1, 5], [1, 2, 3, 4, 5]) ∧
    ¬ [1, 5] <+: [1, 2, 3, 4, 5] := by
  decide

/-! ## The tail -/

/-- Follow the next pointers, without their flags. -/
def follow (pages : Heap (RQueuePage V)) : ℕ → Addr → Option Addr
  | 0, a => some a
  | n + 1, a => (nextAt pages a).bind fun link => link.page.bind (follow pages n)

theorem follow_slot {c : Setting} {s : SharedRQueue V} (hinv : Inv c s) (k : ℕ) :
    ∀ j, s.log.swaps ≤ j → j + k ≤ s.log.swaps + c.size →
      follow s.pages k (c.slot j) = some (c.slot (j + k)) := by
  induction k with
  | zero => exact fun j _ _ => rfl
  | succ k ih =>
      intro j hj hjk
      rw [follow, hinv.link j hj (by omega), Option.bind_some]
      show follow s.pages k (c.slot (j + 1)) = _
      rw [ih (j + 1) (by omega) (by omega), Nat.add_right_comm, Nat.add_assoc]

/-- Whenever neither thread is in its section, the tail can be reached from the head, and
it is not the page that was taken out. -/
theorem tail_stays_in_ring [DecidableEq V] (size : ℕ) (rb : RQueue V)
    (hrb : rqueueCreate size .blocking = some rb) (cb : Bool) (bound reads : ℕ)
    (values : List V) (schedule : List Role) (t : Threads Role (SharedRQueue V))
    (os : List Unit)
    (hmeet : StepsMeet Threads.step (Threads.Meets TailMovesOn)
      (queueThreads bound reads values (rqueueSetFreeValueCallback rb cb)) schedule)
    (hrun : (queueThreads bound reads values (rqueueSetFreeValueCallback rb cb)).run schedule =
      some (t, os)) :
    t.state.readSync = false → t.state.writeSync = false →
      (∃ k, follow t.state.pages k t.state.head = some t.state.tail) ∧
      t.state.tail ≠ t.state.reader := by
  intro hread _
  obtain ⟨c, hinv⟩ := blocking_inv size rb hrb cb bound reads values schedule t os hmeet hrun
  obtain ⟨hhead, hreader, -, -⟩ := hinv.readerIdle hread
  have hle := hinv.swaps_le_stored.trans hinv.stored_le
  have hadvanced := hinv.advanced_le
  refine ⟨⟨t.state.log.advanced.length - t.state.log.swaps, ?_⟩, ?_⟩
  · rw [hinv.head, hinv.tail, hhead, follow_slot hinv _ _ (Nat.le_refl _) (by omega),
      Nat.add_sub_cancel' hle]
  · rw [hinv.tail, hinv.reader, hreader]
    exact c.slot_ne (by omega) (by omega)

theorem tail_stays_in_ring_overlapping :
    ∃ t os, (smallThreads .blocking 1 [1, 2]).run overlapping = some (t, os) ∧
      t.state.readSync = false ∧ t.state.writeSync = false ∧
      (∃ k, follow t.state.pages k t.state.head = some t.state.tail) ∧
      t.state.tail ≠ t.state.reader := by
  have hsome : ((smallThreads .blocking 1 [1, 2]).run overlapping).map (fun r =>
      (r.1.state.readSync, r.1.state.writeSync)) = some (false, false) := by
    decide
  obtain ⟨⟨t, os⟩, hrun, hsync⟩ := Option.map_eq_some_iff.mp hsome
  simp only [Prod.mk.injEq] at hsync
  obtain ⟨hread, hwrite⟩ := hsync
  exact ⟨t, os, hrun, hread, hwrite, tail_stays_in_ring 2 _ (create_smallQueue .blocking) true
    3 1 [1, 2] overlapping t os overlapping_meets hrun hread hwrite⟩

/-- The writer moves the tail while the reader takes the head page of a full ring out. -/
def swappedOut : List Role :=
  inTurns [(.reader, 6), (.writer, 17), (.reader, 11), (.writer, 32), (.reader, 15),
    (.writer, 17)]

/-- Both threads are done, and the tail is the page that was taken out. -/
theorem swappedOut_tail_is_reader :
    ((smallThreads .blocking 1 [1, 2, 3]).run swappedOut).map (fun r =>
      (r.1.state.readSync, r.1.state.writeSync, decide (r.1.state.tail = r.1.state.reader))) =
      some (false, false, true) := by
  decide

/-! ## The empty queue -/

/-- Whenever neither thread is in its section, a queue that is marked as empty has
returned every value whose write returned `0`. -/
theorem empty_means_read [DecidableEq V] (size : ℕ) (mode : RQueueMode) (rb : RQueue V)
    (hrb : rqueueCreate size mode = some rb) (cb : Bool) (bound reads : ℕ)
    (values : List V) (schedule : List Role) (t : Threads Role (SharedRQueue V))
    (os : List Unit)
    (hmeet : StepsMeet Threads.step (Threads.Meets fun i s s' =>
        TailMovesOn i s s' ∧ MarksEmpty i s s' ∧ DropsNothing i s s')
      (queueThreads bound reads values (rqueueSetFreeValueCallback rb cb)) schedule)
    (hrun : (queueThreads bound reads values (rqueueSetFreeValueCallback rb cb)).run schedule =
      some (t, os)) :
    t.state.readSync = false → t.state.writeSync = false → t.state.isEmpty = true →
      t.state.log.returned = t.state.log.completed := by
  intro hread hwrite hempty
  obtain ⟨rb', ps, hrb', hring, -, -, -⟩ := rqueueCreate_eq (V := V) size mode
  cases hrb.symm.trans hrb'
  have hring' : RingInv (rqueueSetFreeValueCallback rb cb) ps []
      (List.replicate (rb.size + 1) none) := { hring with }
  have hinv : Inv (ringSetting hring' True) t.state := by
    refine inv_of_run hring' True (create_commit hrb).1 bound reads values schedule t os
      (hmeet.imp fun s i hs r hr => ?_) hrun
    obtain ⟨htail, hmarks, hdrops⟩ := hs r hr
    cases i with
    | reader => exact fun _ => hmarks rfl
    | writer => exact ⟨htail, fun _ => hdrops rfl⟩
  obtain ⟨-, -, hreturned, -⟩ := hinv.readerIdle hread
  obtain ⟨-, -, hcleared, -, hcompleted⟩ := hinv.writerIdle hwrite
  have hlength : t.state.log.advanced.length = t.state.log.swaps := by
    refine (hinv.empty trivial hempty).resolve_right ?_
    omega
  rw [hcompleted]
  exact hinv.returned.eq_of_length (hreturned.trans hlength.symm)

/-- A write and then a read of its value. -/
def writeThenRead : List Role := inTurns [(.writer, 22), (.reader, 35)]

theorem empty_means_read_writeThenRead :
    ∃ t os, (smallThreads .overwrite 1 [1]).run writeThenRead = some (t, os) ∧
      t.state.readSync = false ∧ t.state.writeSync = false ∧ t.state.isEmpty = true ∧
      t.state.log.returned = t.state.log.completed := by
  have hmeet : StepsMeet Threads.step (Threads.Meets fun i s s' =>
      TailMovesOn i s s' ∧ MarksEmpty i s s' ∧ DropsNothing i s s')
      (smallThreads .overwrite 1 [1]) writeThenRead := by
    decide
  have hsome : ((smallThreads .overwrite 1 [1]).run writeThenRead).map (fun r =>
      (r.1.state.readSync, r.1.state.writeSync, r.1.state.isEmpty)) =
      some (false, false, true) := by
    decide
  obtain ⟨⟨t, os⟩, hrun, hstate⟩ := Option.map_eq_some_iff.mp hsome
  simp only [Prod.mk.injEq] at hstate
  obtain ⟨hread, hwrite, hempty⟩ := hstate
  exact ⟨t, os, hrun, hread, hwrite, hempty, empty_means_read 2 .overwrite _
    (create_smallQueue .overwrite) true 3 1 [1] writeThenRead t os hmeet hrun hread hwrite
    hempty⟩

/-- The second write happens between the last look of the reader at the tail and its mark:
both threads are done, the queue is marked as empty, and the second value was not read. -/
theorem overlapping_hides_value :
    ((smallThreads .blocking 1 [1, 2]).run overlapping).map (fun r =>
      (r.1.state.readSync, r.1.state.writeSync, r.1.state.isEmpty, r.1.state.log.completed,
        r.1.state.log.returned)) = some (false, false, true, [1, 2], [1]) := by
  decide

end SharedRQueue
end LibHL
