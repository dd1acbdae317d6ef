import LibHL.RQueue.SharedRing

/-!
# The writer of the ring queue

A call of `rqueue_write` either gives up and leaves the queue as it is, or adds its
value behind the values of the earlier calls, whatever the reader does meanwhile.
This takes that the page to which it moves the tail is still the one that is next in
the ring.
-/

namespace LibHL
namespace SharedRQueue

open RQueue Prog

variable {V : Type} {c : Setting}

/-! ## What the writer knows -/

theorem writerPart_stable (φ : WriterPart V → Prop) :
    Stable (writerSpec c) (fun s => φ (writerPart s)) := by
  intro s s' hrely _ hs
  rw [show writerPart s' = writerPart s from hrely]
  exact hs

/-- The writer does not have `write_sync`. -/
def Away (s : SharedRQueue V) : Prop := (writerPart s).writeSync = false

/-- The writer has `write_sync`, and all its earlier calls are complete. -/
structure Settled (writers : ℕ) (w : WriterPart V) : Prop where
  writeSync : w.writeSync = true
  numWriters : w.numWriters = writers
  stored : w.stored = w.advanced.length
  cleared : w.cleared = w.advanced.length
  commits : w.commits = w.advanced.length
  completed : w.completed = w.advanced

/-- The writer has moved the tail for `value`; the numbers say which of the following
steps it has made. -/
structure Writing (value : V) (writers st cl cm : ℕ) (w : WriterPart V) : Prop where
  writeSync : w.writeSync = true
  numWriters : w.numWriters = writers
  stored : w.stored = w.completed.length + st
  cleared : w.cleared = w.completed.length + cl
  commits : w.commits = w.completed.length + cm
  advanced : w.advanced = w.completed ++ [value]

/-- The page that the write is for. -/
def Target (c : Setting) (page : Addr) (w : WriterPart V) : Prop :=
  page = c.slot w.completed.length

/-- What the pages that a round has looked at are. -/
structure Looked (c : Setting) (temp commit next head : Addr) (w : WriterPart V) : Prop where
  settled : Settled 1 w
  tail_eq : w.tail = temp
  temp_eq : temp = c.slot w.advanced.length
  commit_eq : commit = c.slot (w.advanced.length - 1)
  next_ne : next ≠ temp
  head_eq : w.advanced.length = 0 → head = c.slot 0

/-- A step that changes nothing that matters to the reader. -/
theorem adds_rfl {s s' : SharedRQueue V} (hpart : readerPart s' = readerPart s)
    (hstored : s'.log.stored = s.log.stored) (hcommits : s'.log.commits = s.log.commits)
    (hadvanced : s'.log.advanced = s.log.advanced)
    (hvalue : valueAt s'.pages = valueAt s.pages) : Adds c s s' := by
  refine ⟨hpart, hstored.ge, hcommits.ge, ?_, fun j _ => by rw [hvalue]⟩
  rw [hadvanced]

/-! ## Entering and leaving -/

theorem lockWrite_triple :
    Triple (writerSpec (V := V) c) Away lockWrite
      (fun ok s => if ok then Settled 0 (writerPart s) else Away s) := by
  refine Triple.atomic (writerPart_stable fun w => w.writeSync = false)
    fun s s' r hinv hs hf _ => ?_
  have hsync : s.writeSync = false := hs
  rw [hsync, if_neg Bool.false_ne_true] at hf
  cases hf
  obtain ⟨hwriters, hstored, hcleared, hcommits, hcompleted⟩ := hinv.writerIdle hsync
  exact ⟨{ hinv with writerIdle := nofun }, adds_rfl rfl rfl rfl rfl rfl,
    rfl, hwriters, hstored, hcleared, hcommits, hcompleted⟩

theorem enterWrite_triple (n : ℕ) :
    Triple (writerSpec (V := V) c) Away (enterWrite n) (fun _ s => Settled 1 (writerPart s)) := by
  induction n with
  | zero => exact Triple.stop
  | succ n ih =>
      refine lockWrite_triple.bind fun ok => ?_
      cases ok with
      | false => exact ih
      | true =>
          refine modify_triple (writerPart_stable _) fun s hinv hs _ => ?_
          refine ⟨{ hinv with
            writerIdle := fun h => absurd (hs.writeSync.symm.trans h) (by decide) },
            adds_rfl rfl rfl rfl rfl rfl, hs.writeSync, ?_, hs.stored, hs.cleared, hs.commits,
            hs.completed⟩
          show s.numWriters + 1 = 1
          rw [show s.numWriters = 0 from hs.numWriters]

theorem leaveWrite_none_triple :
    Triple (writerSpec (V := V) c) (fun s => Settled 1 (writerPart s)) (leaveWrite none)
      (fun _ => Away) := by
  refine Triple.bind (modify_triple (Q := fun _ s => Settled 0 (writerPart s))
    (writerPart_stable _) fun s hinv hs _ => ?_) fun _ => ?_
  · refine ⟨{ hinv with
      writerIdle := fun h => absurd (hs.writeSync.symm.trans h) (by decide) },
      adds_rfl rfl rfl rfl rfl rfl, hs.writeSync, ?_, hs.stored, hs.cleared, hs.commits,
      hs.completed⟩
    show s.numWriters - 1 = 0
    rw [show s.numWriters = 1 from hs.numWriters]
  · refine modify_triple (writerPart_stable _) fun s hinv hs _ => ?_
    have hcompleted : s.log.completed ++ (none : Option V).toList = s.log.completed := by simp
    rw [hcompleted]
    exact ⟨{ hinv with
      writerIdle := fun _ => ⟨hs.numWriters, hs.stored, hs.cleared, hs.commits, hs.completed⟩ },
      adds_rfl rfl rfl rfl rfl rfl, rfl⟩

theorem leaveWrite_some_triple {value : V} :
    Triple (writerSpec c) (fun s => Writing value 1 1 1 1 (writerPart s))
      (leaveWrite (some value)) (fun _ => Away) := by
  refine Triple.bind (modify_triple (Q := fun _ s => Writing value 0 1 1 1 (writerPart s))
    (writerPart_stable _) fun s hinv hs _ => ?_) fun _ => ?_
  · refine ⟨{ hinv with
      writerIdle := fun h => absurd (hs.writeSync.symm.trans h) (by decide) },
      adds_rfl rfl rfl rfl rfl rfl, hs.writeSync, ?_, hs.stored, hs.cleared, hs.commits,
      hs.advanced⟩
    show s.numWriters - 1 = 0
    rw [show s.numWriters = 1 from hs.numWriters]
  · refine modify_triple (writerPart_stable _) fun s hinv hs _ => ?_
    have hadvanced : s.log.advanced = s.log.completed ++ [value] := hs.advanced
    have hlength : s.log.advanced.length = s.log.completed.length + 1 := by
      rw [hadvanced, List.length_append]
      rfl
    exact ⟨{ hinv with
      writerIdle := fun _ => ⟨hs.numWriters, hs.stored.trans hlength.symm,
        hs.cleared.trans hlength.symm, hs.commits.trans hlength.symm, hadvanced.symm⟩ },
      adds_rfl rfl rfl rfl rfl rfl, rfl⟩

/-- How a round ends that did not move the tail. -/
def RoundDone (c : Setting) (value : V) : SharedRound → SharedRQueue V → Prop
  | .ret _, s => Away s
  | .next _ temp tail, s =>
      (tail = none ∧ Settled 1 (writerPart s)) ∨
      (tail = some temp ∧ Writing value 1 0 0 0 (writerPart s) ∧ Target c temp (writerPart s))

theorem retryWrite_triple {value : V} (bound maxRetries retries : ℕ) (temp : Addr) :
    Triple (writerSpec c) (fun s => Settled 1 (writerPart s))
      (retryWrite bound maxRetries retries temp none) (RoundDone c value) := by
  unfold retryWrite
  by_cases hretry : retries < maxRetries
  · rw [if_pos hretry]
    refine leaveWrite_none_triple.bind fun _ => ?_
    refine (enterWrite_triple bound).bind fun _ => ?_
    exact Triple.ret fun s hs => Or.inl ⟨rfl, hs⟩
  · rw [if_neg hretry]
    exact leaveWrite_none_triple.bind fun _ => Triple.ret fun s hs => hs

/-! ## Moving the tail -/

/-- Moving the tail to the page that is next in the ring. -/
theorem Inv.moveTail {s : SharedRQueue V} (h : Inv c s) {value : V} {next : Addr}
    (hsettled : Settled 1 (writerPart s)) (hnext : nextAt s.pages s.tail = some (linkTo next)) :
    Inv c { s with
      tail := next
      log := { s.log with advanced := s.log.advanced ++ [value] } } := by
  have hle := h.advanced_le
  have hstored := h.swaps_le_stored.trans h.stored_le
  have hlt : s.log.advanced.length < s.log.swaps + c.size := by
    refine lt_of_le_of_ne hle fun heq => ?_
    have hclosing := h.closing
    rw [← heq, ← h.tail, hnext] at hclosing
    cases hclosing
  have hlink := h.link _ hstored hlt
  rw [← h.tail, hnext, Option.some.injEq] at hlink
  have hlength : (s.log.advanced ++ [value]).length = s.log.advanced.length + 1 :=
    List.length_append
  exact { h with
    tail := by
      show next = c.slot (s.log.advanced ++ [value]).length
      rw [hlength]
      exact Option.some.inj (congrArg PageLink.page hlink)
    stored_le := by
      show s.log.stored ≤ (s.log.advanced ++ [value]).length
      rw [hlength]
      exact Nat.le_succ_of_le h.stored_le
    advanced_le := by
      show (s.log.advanced ++ [value]).length ≤ s.log.swaps + c.size
      rw [hlength]
      exact hlt
    value := by
      intro j hj hj'
      show _ = (s.log.advanced ++ [value])[j]?
      rw [List.getElem?_append_left (lt_of_lt_of_le hj' h.stored_le)]
      exact h.value j hj hj'
    returned := h.returned.trans (List.prefix_append _ _)
    writerIdle := fun hs => absurd (hsettled.writeSync.symm.trans hs) (by decide)
    empty := by
      intro _ _
      right
      show s.log.cleared < (s.log.advanced ++ [value]).length
      rw [hlength, show s.log.cleared = s.log.advanced.length from hsettled.cleared]
      exact Nat.lt_succ_self _ }

theorem casTail_triple {value : V} {temp commit next head : Addr} :
    Triple (writerSpec c) (fun s => Looked c temp commit next head (writerPart s))
      (casTail temp next (some value))
      (fun old s => old = temp ∧
        (Writing value 1 0 0 0 (writerPart s) ∧ Target c temp (writerPart s))) := by
  refine Triple.atomic (writerPart_stable _) fun s s' r hinv hs hf hcond => ?_
  have htail : s.tail = temp := hs.tail_eq
  rw [if_pos htail] at hf
  cases hf
  have hnext : nextAt s.pages s.tail = some (linkTo next) := by
    refine hcond.1.resolve_left fun heq => hs.next_ne ?_
    exact heq.trans htail
  have hsettled := hs.settled
  have hcompleted : s.log.completed = s.log.advanced := hsettled.completed
  refine ⟨hinv.moveTail hsettled hnext,
    ⟨rfl, Nat.le_refl _, Nat.le_refl _, List.prefix_append _ _, fun _ _ => rfl⟩, rfl,
    ⟨hsettled.writeSync, hsettled.numWriters, ?_, ?_, ?_, ?_⟩, ?_⟩
  · show s.log.stored = s.log.completed.length + 0
    rw [hcompleted]
    exact hsettled.stored
  · show s.log.cleared = s.log.completed.length + 0
    rw [hcompleted]
    exact hsettled.cleared
  · show s.log.commits = s.log.completed.length + 0
    rw [hcompleted]
    exact hsettled.commits
  · show s.log.advanced ++ [value] = s.log.completed ++ [value]
    rw [hcompleted]
  · show temp = c.slot s.log.completed.length
    rw [hcompleted]
    exact hs.temp_eq

theorem noRoom_keeps {P : SharedRQueue V → Prop} (hP : Stable (writerSpec c) P)
    (head temp next : Addr) :
    Triple (writerSpec c) P (noRoom head temp next) (fun _ => P) := by
  refine (readPage_keeps (Adds.refl c) hP).bind fun link => ?_
  by_cases hflag : link.head = true
  · rw [if_pos hflag]
    exact Triple.ret fun s hs => hs
  · rw [if_neg hflag]
    by_cases hhead : next = head
    · rw [if_pos hhead]
      exact (get_keeps (Adds.refl c) hP).bind fun _ => Triple.ret fun s hs => hs
    · rw [if_neg hhead]
      exact Triple.ret fun s hs => hs

/-- No value is dropped. -/
theorem lockForOverwrite_triple {P : SharedRQueue V → Prop} (hP : Stable (writerSpec c) P)
    (commit temp : Addr) :
    Triple (writerSpec c) P (lockForOverwrite commit temp) (fun ok s => ok = false ∧ P s) := by
  refine Triple.bind (get_triple (Q := fun mode s => mode = c.mode ∧ P s) (Adds.refl c) hP
    fun s hinv hs => ⟨hinv.mode, hs⟩) fun mode => Triple.of_fact fun hmode => ?_
  by_cases hover : mode = .overwrite
  · rw [if_pos hover]
    refine (readPage_keeps (Adds.refl c) hP).bind fun link => ?_
    by_cases hlink : link = linkTo temp
    · rw [if_pos hlink]
      refine lockRead_triple (Adds.refl c) hP (fun s _ hs _ => ⟨rfl, hs⟩)
        fun s hinv hs hsync hcond => ?_
      have htrue : s.readSync = true := hcond.2 (hmode.symm.trans hover) rfl
      rw [hsync] at htrue
      cases htrue
    · rw [if_neg hlink]
      exact Triple.ret fun s hs => ⟨rfl, hs⟩
  · rw [if_neg hover]
    exact Triple.ret fun s hs => ⟨rfl, hs⟩

theorem moveTail_triple {value : V} {temp commit next head : Addr} (bound retries : ℕ) :
    Triple (writerSpec c) (fun s => Looked c temp commit next head (writerPart s))
      (moveTail bound retries value head commit temp next none) (RoundDone c value) := by
  have hstable := writerPart_stable (c := c) (V := V) (Looked c temp commit next head)
  refine (noRoom_keeps hstable head temp next).bind fun full => ?_
  cases full with
  | true =>
      refine (lockForOverwrite_triple hstable commit temp).bind fun ok =>
        Triple.of_fact fun hok => ?_
      subst hok
      exact (retryWrite_triple bound _ retries temp).weaken (fun s hs => hs.settled)
        fun _ s hs => hs
  | false =>
      refine (readPage_keeps (Adds.refl c) hstable).bind fun link => ?_
      by_cases hflag : link.head = true
      · rw [if_pos hflag]
        exact Triple.ret fun s hs => Or.inl ⟨rfl, hs.settled⟩
      · rw [if_neg hflag]
        refine casTail_triple.bind fun old => Triple.of_fact fun heq => ?_
        subst heq
        exact Triple.ret fun s hs => Or.inr ⟨rfl, hs⟩

/-! ## A round -/

/-- The page after the tail is another page. -/
theorem next_ne_tail {s : SharedRQueue V} (hinv : Inv c s) {p : RQueuePage V}
    (hp : s.pages (c.slot s.log.advanced.length) = some p) :
    ∃ next, p.next.page = some next ∧ next ≠ c.slot s.log.advanced.length := by
  have hsize := c.two_le_size
  have hle := hinv.advanced_le
  have hge := hinv.swaps_le_stored.trans hinv.stored_le
  by_cases hlast : s.log.advanced.length = s.log.swaps + c.size
  · have hclosing := hinv.closing
    rw [← hlast, nextAt_eq hp, Option.some.injEq] at hclosing
    exact ⟨c.slot s.log.swaps, congrArg PageLink.page hclosing,
      c.slot_ne (by omega) (by omega)⟩
  · have hlink := hinv.link _ hge (by omega)
    rw [nextAt_eq hp, Option.some.injEq] at hlink
    exact ⟨c.slot (s.log.advanced.length + 1), congrArg PageLink.page hlink,
      (c.slot_ne (by omega) (by omega)).symm⟩

theorem Looked.not_blocked {temp commit next head : Addr} {w : WriterPart V}
    (h : Looked c temp commit next head w) (hcommit : commit = temp) : temp = head := by
  have hsize := c.two_le_size
  by_cases hzero : w.advanced.length = 0
  · rw [h.head_eq hzero, h.temp_eq, hzero]
  · exfalso
    rw [h.commit_eq, h.temp_eq] at hcommit
    exact c.slot_ne (by omega) (by omega) hcommit

theorem sharedWriteRound_triple {value : V} (bound retries : ℕ) :
    Triple (writerSpec c) (fun s => Settled 1 (writerPart s))
      (sharedWriteRound bound retries value none) (RoundDone c value) := by
  refine Triple.bind (get_triple (Q := fun temp s => Settled 1 (writerPart s) ∧
    (writerPart s).tail = temp ∧ temp = c.slot (writerPart s).advanced.length) (Adds.refl c)
    (writerPart_stable _) fun s hinv hs => ⟨hs, rfl, hinv.tail⟩) fun temp => ?_
  refine Triple.bind (get_triple (Q := fun commit s => Settled 1 (writerPart s) ∧
    (writerPart s).tail = temp ∧ temp = c.slot (writerPart s).advanced.length ∧
    commit = c.slot ((writerPart s).advanced.length - 1)) (Adds.refl c)
    (writerPart_stable fun w => Settled 1 w ∧ w.tail = temp ∧ temp = c.slot w.advanced.length)
    fun s hinv hs => ⟨hs.1, hs.2.1, hs.2.2, ?_⟩) fun commit => ?_
  · rw [hinv.commit, show s.log.commits = s.log.advanced.length from hs.1.commits]
    rfl
  refine Triple.bind (readPage_triple (Q := fun link s =>
    (∃ next, link.page = some next ∧ next ≠ temp) ∧ (Settled 1 (writerPart s) ∧
    (writerPart s).tail = temp ∧ temp = c.slot (writerPart s).advanced.length ∧
    commit = c.slot ((writerPart s).advanced.length - 1))) (Adds.refl c)
    (writerPart_stable fun w => Settled 1 w ∧ w.tail = temp ∧ temp = c.slot w.advanced.length ∧
      commit = c.slot (w.advanced.length - 1))
    fun s p hinv hs hp => ⟨?_, hs⟩) fun link => Triple.of_fact fun hnext => ?_
  · obtain ⟨-, -, htemp, -⟩ := hs
    rw [htemp] at hp ⊢
    exact next_ne_tail hinv hp
  obtain ⟨next, hpage, hne⟩ := hnext
  rw [hpage]
  refine Triple.bind (get_triple (Q := fun head s => Looked c temp commit next head
    (writerPart s)) (Adds.refl c) (writerPart_stable fun w => Settled 1 w ∧ w.tail = temp ∧
      temp = c.slot w.advanced.length ∧ commit = c.slot (w.advanced.length - 1))
    fun s hinv hs => ⟨hs.1, hs.2.1, hs.2.2.1, hs.2.2.2, hne, fun hzero => ?_⟩) fun head => ?_
  · have hmoves := hinv.headMoves_le
    have hstored := hinv.swaps_le_stored.trans hinv.stored_le
    have hlength : s.log.advanced.length = 0 := hzero
    rw [hinv.head, show s.log.headMoves = 0 by omega]
  have hstable := writerPart_stable (c := c) (V := V) (Looked c temp commit next head)
  refine (get_keeps (Adds.refl c) hstable).bind fun current => ?_
  by_cases hcommit : current = commit
  · rw [if_pos hcommit]
    refine (get_keeps (Adds.refl c) hstable).bind fun current => ?_
    by_cases htail : current = temp
    · rw [if_pos htail]
      refine (get_keeps (Adds.refl c) hstable).bind fun mode => ?_
      by_cases hblocked : mode = .blocking ∧ commit = temp ∧ temp ≠ head ∧ next ≠ head
      · intro s hs
        exact absurd (hs.not_blocked hblocked.2.1) hblocked.2.2.1
      · rw [if_neg hblocked]
        exact moveTail_triple bound retries
    · rw [if_neg htail]
      exact Triple.ret fun s hs => Or.inl ⟨rfl, hs.settled⟩
  · rw [if_neg hcommit]
    exact Triple.ret fun s hs => Or.inl ⟨rfl, hs.settled⟩

theorem sharedWriteLoop_triple {value : V} (bound n retries : ℕ) :
    Triple (writerSpec c) (fun s => Settled 1 (writerPart s))
      (sharedWriteLoop bound value n retries none)
      (fun r s => match r with
        | .inl _ => Away s
        | .inr page => Writing value 1 0 0 0 (writerPart s) ∧ Target c page (writerPart s)) := by
  induction n generalizing retries with
  | zero => exact Triple.stop
  | succ n ih =>
      refine (sharedWriteRound_triple bound retries).bind fun round => ?_
      cases round with
      | ret rc => exact Triple.ret fun s hs => hs
      | next retries temp tail =>
          rintro s (⟨rfl, hs⟩ | ⟨rfl, hs⟩)
          · dsimp only
            rw [if_neg nofun]
            by_cases hretry : retries < writerCasMaxRetries
            · rw [if_pos hretry]
              exact ih (retries + 1) s hs
            · rw [if_neg hretry]
              exact Triple.bind leaveWrite_none_triple (fun _ => Triple.ret fun s hs => hs) s hs
          · dsimp only
            rw [if_pos rfl]
            exact hs

/-! ## Storing the value -/

/-- Storing the value on the page that the tail left. -/
theorem storeValue_step {s : SharedRQueue V} {value : V} {page : Addr} {p : RQueuePage V}
    (hinv : Inv c s) (hwriting : Writing value 1 0 0 0 (writerPart s))
    (htarget : Target c page (writerPart s)) (hp : s.pages page = some p) :
    Inv c { s with
      pages := s.pages.put page { p with value := some value }
      log := { s.log with stored := s.log.stored + 1 } } ∧
    Adds c s { s with
      pages := s.pages.put page { p with value := some value }
      log := { s.log with stored := s.log.stored + 1 } } := by
  have hsize := c.two_le_size
  have hstored : s.log.stored = s.log.completed.length := hwriting.stored
  have hadvanced : s.log.advanced = s.log.completed ++ [value] := hwriting.advanced
  have hlength : s.log.advanced.length = s.log.stored + 1 := by
    rw [hadvanced, hstored, List.length_append]
    rfl
  have hpage : page = c.slot s.log.stored := by
    rw [hstored]
    exact htarget
  have hle := hinv.advanced_le
  have hswaps := hinv.swaps_le_stored
  have hnext : nextAt (s.pages.put page { p with value := some value }) = nextAt s.pages := by
    rw [nextAt_put hp, ← nextAt_eq hp, Function.update_eq_self]
  have hprev : prevAt (s.pages.put page { p with value := some value }) = prevAt s.pages := by
    rw [prevAt_put hp, ← prevAt_eq hp, Function.update_eq_self]
  refine ⟨{ hinv with
    page := fun j => isSome_put (hinv.page j)
    link := ?_
    closing := ?_
    swaps_le_stored := Nat.le_succ_of_le hswaps
    stored_le := hlength.ge
    commits_le := Nat.le_succ_of_le hinv.commits_le
    not_empty := fun _ => Nat.succ_pos _
    value := ?_
    readerIdle := ?_
    writerIdle := fun hs => absurd (hwriting.writeSync.symm.trans hs) (by decide) },
    ?_, Nat.le_succ _, Nat.le_refl _, List.prefix_rfl, ?_⟩
  · rw [hnext]
    exact hinv.link
  · rw [hnext]
    exact hinv.closing
  · intro j hj hj'
    have hj₁ : s.log.swaps ≤ j := hj
    have hj₂ : j < s.log.stored + 1 := hj'
    rw [valueAt_put hp]
    by_cases hlast : j = s.log.stored
    · rw [hlast, ← hpage, Function.update_self, hadvanced, hstored]
      exact (List.getElem?_concat_length).symm
    · rw [hpage, Function.update_of_ne (c.slot_ne (by omega) (by omega))]
      exact hinv.value j hj (by omega)
  · rw [hprev]
    exact hinv.readerIdle
  · simp only [readerPart, hnext, hprev]
  · intro j hj
    rw [valueAt_put hp, hpage, Function.update_of_ne (c.slot_ne (by omega) (by omega))]

theorem clearEmpty_triple {value : V} {page : Addr} :
    Triple (writerSpec c)
      (fun s => Writing value 1 1 0 0 (writerPart s) ∧ Target c page (writerPart s))
      (modify fun s => { s with
        isEmpty := false
        log := { s.log with cleared := s.log.cleared + 1 } })
      (fun _ s => Writing value 1 1 1 0 (writerPart s) ∧ Target c page (writerPart s)) := by
  refine modify_triple (writerPart_stable fun w => Writing value 1 1 0 0 w ∧ Target c page w)
    fun s hinv hs _ => ?_
  obtain ⟨hwriting, htarget⟩ := hs
  have hstored : s.log.stored = s.log.completed.length + 1 := hwriting.stored
  refine ⟨{ hinv with
    not_empty := fun _ => by
      rw [hstored]
      exact Nat.succ_pos _
    writerIdle := fun hs => absurd (hwriting.writeSync.symm.trans hs) (by decide)
    empty := nofun }, adds_rfl rfl rfl rfl rfl rfl, ⟨hwriting.writeSync, hwriting.numWriters,
    hwriting.stored, ?_, hwriting.commits, hwriting.advanced⟩, htarget⟩
  exact congrArg (· + 1) hwriting.cleared

theorem casCommit_triple {value : V} {page commit : Addr} :
    Triple (writerSpec c)
      (fun s => Writing value 1 1 1 0 (writerPart s) ∧ Target c page (writerPart s) ∧
        (writerPart s).commit = commit)
      (casCommit commit page) (fun _ s => Writing value 1 1 1 1 (writerPart s)) := by
  refine modify_triple (writerPart_stable fun w => Writing value 1 1 1 0 w ∧ Target c page w ∧
    w.commit = commit) fun s hinv hs _ => ?_
  obtain ⟨hwriting, htarget, hcommit⟩ := hs
  have hcommit' : s.commit = commit := hcommit
  have hcommits : s.log.commits = s.log.completed.length := hwriting.commits
  have hstored : s.log.stored = s.log.completed.length + 1 := hwriting.stored
  have hswaps := hinv.swaps_le_commits
  rw [if_pos hcommit']
  refine ⟨{ hinv with
    commit := ?_
    commits_le := ?_
    swaps_le_commits := ?_
    writerIdle := fun hs => absurd (hwriting.writeSync.symm.trans hs) (by decide) },
    ⟨rfl, Nat.le_refl _, Nat.le_succ _, List.prefix_rfl, fun _ _ => rfl⟩,
    hwriting.writeSync, hwriting.numWriters, hwriting.stored, hwriting.cleared, ?_,
    hwriting.advanced⟩
  · show page = c.slot (s.log.commits + 1 - 1)
    rw [Nat.add_sub_cancel, hcommits]
    exact htarget
  · show s.log.commits + 1 ≤ s.log.stored
    omega
  · show s.log.swaps ≤ max (s.log.commits + 1) 1
    omega
  · show s.log.commits + 1 = s.log.completed.length + 1
    rw [hcommits]

section Values

variable [DecidableEq V]

theorem rqueueUpdateValue_triple {value : V} {page : Addr} (n : ℕ) :
    Triple (writerSpec c)
      (fun s => Writing value 1 0 0 0 (writerPart s) ∧ Target c page (writerPart s))
      (rqueueUpdateValue page value n)
      (fun _ s => Writing value 1 1 0 0 (writerPart s) ∧ Target c page (writerPart s)) := by
  have hstable := writerPart_stable (c := c) fun w => Writing value 1 0 0 0 w ∧ Target c page w
  induction n with
  | zero => exact Triple.stop
  | succ n ih =>
      refine (readPage_keeps (Adds.refl c) hstable).bind fun old => ?_
      refine Triple.bind (casValue_triple (Q := fun ok s => if ok then
        Writing value 1 1 0 0 (writerPart s) ∧ Target c page (writerPart s) else
        Writing value 1 0 0 0 (writerPart s) ∧ Target c page (writerPart s)) (Adds.refl c)
        hstable (fun s _ hs => hs) fun s p hinv hs hp _ => ?_) fun ok => ?_
      · obtain ⟨hinv', hadds⟩ := storeValue_step hinv hs.1 hs.2 hp
        obtain ⟨hwriting, htarget⟩ := hs
        refine ⟨hinv', hadds, ⟨hwriting.writeSync, hwriting.numWriters, ?_, hwriting.cleared,
          hwriting.commits, hwriting.advanced⟩, htarget⟩
        exact congrArg (· + 1) hwriting.stored
      cases ok with
      | false => exact ih
      | true =>
          refine modify_triple (writerPart_stable fun w => Writing value 1 1 0 0 w ∧
            Target c page w) fun s hinv hs _ => ?_
          by_cases hcb : s.freeValueCb = true
          · rw [if_pos hcb]
            exact ⟨{ hinv with }, adds_rfl rfl rfl rfl rfl rfl, hs⟩
          · rw [if_neg hcb]
            exact ⟨hinv, Adds.refl c s, hs⟩

theorem storeValue_triple {value : V} {page : Addr} (bound : ℕ) :
    Triple (writerSpec c)
      (fun s => Writing value 1 0 0 0 (writerPart s) ∧ Target c page (writerPart s))
      (storeValue bound page value) (fun _ => Away) := by
  refine (rqueueUpdateValue_triple bound).bind fun _ => ?_
  refine Triple.bind (modify_triple (Q := fun _ s => Writing value 1 1 0 0 (writerPart s) ∧
    Target c page (writerPart s)) (writerPart_stable fun w => Writing value 1 1 0 0 w ∧
    Target c page w) fun s hinv hs _ => ⟨{ hinv with }, adds_rfl rfl rfl rfl rfl rfl, hs⟩)
    fun _ => ?_
  refine clearEmpty_triple.bind fun _ => ?_
  have hstable := writerPart_stable (c := c) fun w => Writing value 1 1 1 0 w ∧ Target c page w
  refine Triple.bind (get_triple (Q := fun n s => n = 1 ∧ (Writing value 1 1 1 0 (writerPart s) ∧
    Target c page (writerPart s))) (Adds.refl c) hstable fun s _ hs => ⟨hs.1.numWriters, hs⟩)
    fun n => Triple.of_fact fun hn => ?_
  rw [if_pos hn]
  refine Triple.bind (get_triple (Q := fun commit s => Writing value 1 1 1 0 (writerPart s) ∧
    Target c page (writerPart s) ∧ (writerPart s).commit = commit) (Adds.refl c) hstable
    fun s _ hs => ⟨hs.1, hs.2, rfl⟩) fun commit => ?_
  refine casCommit_triple.bind fun _ => ?_
  exact leaveWrite_some_triple.bind fun _ => Triple.ret fun s hs => hs

theorem rqueueWrite_triple {value : V} (bound : ℕ) :
    Triple (writerSpec c) Away (rqueueWrite bound value) (fun _ => Away) := by
  refine (enterWrite_triple bound).bind fun _ => ?_
  refine (sharedWriteLoop_triple bound _ 0).bind fun r => ?_
  cases r with
  | inl rc => exact Triple.ret fun s hs => hs
  | inr page => exact storeValue_triple bound

theorem writeAll_triple (bound : ℕ) (values : List V) :
    Triple (writerSpec c) Away (writeAll bound values) (fun _ => Away) := by
  induction values with
  | nil => exact Triple.ret fun s hs => hs
  | cons value values ih => exact (rqueueWrite_triple bound).bind fun _ => ih

end Values

end SharedRQueue
end LibHL
