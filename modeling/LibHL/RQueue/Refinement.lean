import LibHL.RQueue.Invariant
import LibHL.Support.Run
import Mathlib.Data.List.Perm.Basic
import Mathlib.Data.List.Count
import Mathlib.Data.Finset.Card

/-!
# The ring queue is a bounded queue

Every run of reads, writes and mode changes on a new queue answers as a list
with a capacity does.  With a free callback set, every value written is
accounted for once the queue is destroyed.
-/

namespace LibHL
namespace RQueue

variable {V : Type}

/-! ## The reference -/

/-- A call of the interface. -/
inductive Op (V : Type) where
  | write (value : V)
  | read
  | isempty
  | setMode (mode : RQueueMode)

/-- What a call returns. -/
inductive Out (V : Type) where
  | code (rc : ℤ)
  | value (v : Option V)
  | done

/-- Perform a call. -/
def step (rb : RQueue V) : Op V → Option (RQueue V × Out V)
  | .write v => (rb.rqueueWrite v).map fun r => (r.1, .code r.2)
  | .read => rb.rqueueRead.map fun r => (r.1, .value r.2)
  | .isempty => some (rb, .code rb.rqueueIsempty)
  | .setMode mode => some (rb.rqueueSetMode mode, .done)

/-- A queue of bounded capacity: its values, oldest first, and its mode. -/
def fifoRef (capacity : ℕ) (s : List V × RQueueMode) : Op V → (List V × RQueueMode) × Out V
  | .write v =>
      if s.1.length < capacity then
        ((s.1 ++ [v], s.2), .code 0)
      else
        match s.2 with
        | .blocking => (s, .code (-2))
        | .overwrite => ((s.1.tail ++ [v], s.2), .code 0)
  | .read => ((s.1.tail, s.2), .value s.1.head?)
  | .isempty => (s, .code (if s.1.isEmpty then 1 else 0))
  | .setMode mode => ((s.1, mode), .done)

/-- The value a call put into the queue. -/
def writtenBy : Op V → Out V → List V
  | .write v, .code rc => if rc = 0 then [v] else []
  | _, _ => []

/-- The value a call handed to the caller. -/
def returnedBy : Out V → List V
  | .value v => v.toList
  | _ => []

/-- All values put into the queue by a run. -/
def written (ops : List (Op V)) (outs : List (Out V)) : List V :=
  (ops.zip outs).flatMap fun p => writtenBy p.1 p.2

/-- All values handed out by a run. -/
def returned (outs : List (Out V)) : List V := outs.flatMap returnedBy

/-! ## Creation -/

/-- The first `k` pages in a row, not closed to a ring yet. -/
structure Chained (c : PageChain V) (k : ℕ) : Prop where
  head : c.head = some 0
  tail : c.tail = some (k - 1)
  brk : c.pages.brk = k
  pages : ∀ i, i < k → c.pages i = some {
    value := none
    next := ⟨if i + 1 < k then some (i + 1) else none, false⟩
    prev := some (i - 1) }

theorem addPage_first :
    ∃ c : PageChain V, addPage { pages := Heap.empty, head := none, tail := none } = some c ∧
      Chained c 1 := by
  refine ⟨_, rfl, ⟨rfl, rfl, rfl, ?_⟩⟩
  intro i hi
  obtain rfl : i = 0 := by omega
  rfl

theorem addPage_next {c : PageChain V} {k : ℕ} (h : Chained c (k + 1)) :
    ∃ c', addPage c = some c' ∧ Chained c' (k + 2) := by
  have hk : c.pages k = some { value := none, next := ⟨none, false⟩, prev := some (k - 1) } := by
    simpa using h.pages k (by omega)
  let p : RQueuePage V := { value := none, next := ⟨none, false⟩, prev := none }
  let pages₁ := (c.pages.alloc p).1
  let pages₂ := pages₁.put k
    { value := none, next := linkTo (k + 1), prev := some (k - 1) }
  let pages₃ := pages₂.put (k + 1)
    { value := none, next := ⟨none, false⟩, prev := some k }
  have h₁ : pages₁ k = some { value := none, next := ⟨none, false⟩, prev := some (k - 1) } := by
    simp [pages₁, Heap.alloc_apply, h.brk, hk]
  have h₂ : pages₂ (k + 1) = some p := by
    simp [pages₂, Heap.put_apply, pages₁, Heap.alloc_apply, h.brk]
  refine ⟨{ pages := pages₃, head := some 0, tail := some (k + 1) }, ?_, ⟨rfl, rfl, ?_, ?_⟩⟩
  · simp only [addPage, h.head, h.tail, Nat.add_sub_cancel, Heap.alloc_snd, h.brk]
    rw [show (c.pages.alloc { value := none, next := ⟨none, false⟩, prev := none }).1 =
      pages₁ from rfl, Heap.modify_eq_some _ h₁]
    simp only [Option.bind_eq_bind, Option.bind_some]
    rw [show pages₁.put k { value := none, next := linkTo (k + 1), prev := some (k - 1) } =
      pages₂ from rfl, Heap.modify_eq_some _ h₂]
    rfl
  · simp [pages₃, pages₂, pages₁, h.brk]
  · intro i hi
    by_cases hi₁ : i = k + 1
    · subst i
      simp [pages₃, Heap.put_apply, h₂]
    by_cases hi₂ : i = k
    · subst i
      simp [pages₃, pages₂, Heap.put_apply, h₁, linkTo]
    · have hlt : i < k := by omega
      have hlt' : i < k + 1 := by omega
      have hbrk : i ≠ c.pages.brk := by
        rw [h.brk]
        omega
      simp [pages₃, pages₂, pages₁, Heap.put_apply, Heap.alloc_apply, hi₁, hi₂, hbrk,
        h.pages i hlt', hlt, hlt']

theorem addPages_eq (n : ℕ) :
    ∀ {c : PageChain V} {k : ℕ}, Chained c (k + 1) →
      ∃ c', addPages n c = some c' ∧ Chained c' (k + 1 + n) := by
  induction n with
  | zero =>
      intro c k h
      exact ⟨c, rfl, h⟩
  | succ n ih =>
      intro c k h
      obtain ⟨c₁, hrun₁, h₁⟩ := addPage_next h
      obtain ⟨c₂, hrun₂, h₂⟩ := ih h₁
      refine ⟨c₂, by simp [addPages, hrun₁, hrun₂], ?_⟩
      rwa [show k + 1 + (n + 1) = k + 1 + 1 + n by omega]

/-- The pages of a new queue, numbered along the ring. -/
theorem ringed_range {n : ℕ} {pages : Heap (RQueuePage V)}
    (hpages : ∀ i, i < n + 1 → pageLinks pages i = some {
      next := if i = n then some 0 else some (i + 1)
      closing := decide (i = n)
      prev := if i = 0 then some n else some (i - 1) }) :
    Ringed (pageLinks pages) (List.range (n + 1)) := by
  refine ⟨List.nodup_range, ?_⟩
  intro i a hi
  obtain ⟨hlt, hget⟩ := List.getElem?_eq_some_iff.mp hi
  rw [List.getElem_range] at hget
  subst hget
  rw [List.length_range] at hlt
  rw [hpages i hlt]
  congr 2
  · rw [ringNext, List.length_range]
    by_cases hin : i = n
    · rw [if_pos hin, if_pos (by omega), List.getElem?_range (by omega)]
    · rw [if_neg hin, if_neg (by omega), List.getElem?_range (by omega)]
  · simp
  · rw [ringPrev, List.length_range]
    by_cases hi0 : i = 0
    · rw [if_pos hi0, if_pos hi0, List.getElem?_range (by omega), Nat.add_sub_cancel]
    · rw [if_neg hi0, if_neg hi0, List.getElem?_range (by omega)]

/-- A new queue stores nothing, has the wanted capacity but at least two, and
no callback. -/
theorem rqueueCreate_eq (size : ℕ) (mode : RQueueMode) :
    ∃ (rb : RQueue V) (ps : List Addr), rqueueCreate size mode = some rb ∧
      RingInv rb ps [] (List.replicate (rb.size + 1) none) ∧ rb.size = max size 2 ∧
      rb.mode = mode ∧ rb.freed = [] := by
  obtain ⟨n, hsize, hn⟩ : ∃ n, (if minSize < size then size else minSize) = n ∧
      n = max size 2 := by
    refine ⟨_, rfl, ?_⟩
    unfold minSize
    split
    · omega
    · omega
  obtain ⟨c₁, hrun₁, hc₁⟩ := addPage_first (V := V)
  obtain ⟨c, hrun, hc⟩ := addPages_eq n hc₁
  rw [Nat.zero_add, Nat.add_comm] at hc
  have hmin : 2 ≤ n := by omega
  have hn0 : n ≠ 0 := by omega
  have hfirst := hc.pages 0 (by omega)
  have hlast := hc.pages n (by omega)
  rw [if_neg (Nat.lt_irrefl _)] at hlast
  let pages₁ := c.pages.put 0 ⟨none, ⟨if 0 + 1 < n + 1 then some (0 + 1) else none, false⟩,
    some n⟩
  let pages₂ := pages₁.put n ⟨none, flagOn (linkTo 0), some (n - 1)⟩
  let pages₃ := (pages₂.alloc ⟨none, linkTo 0, some n⟩).1
  have h₁ : pages₁ n = some ⟨none, ⟨none, false⟩, some (n - 1)⟩ :=
    (Heap.put_of_ne hn0).trans hlast
  have h₂ : pages₂ 0 = some ⟨none, ⟨if 0 + 1 < n + 1 then some (0 + 1) else none, false⟩,
      some n⟩ :=
    (Heap.put_of_ne hn0.symm).trans (Heap.put_self hfirst)
  have hbrk : pages₂.brk = n + 1 := hc.brk
  have h₃ : ∀ i, i < n + 1 → pages₃ i = some {
      value := none
      next := if i = n then ⟨some 0, true⟩ else ⟨some (i + 1), false⟩
      prev := if i = 0 then some n else some (i - 1) } := by
    intro i hi
    have hne : i ≠ pages₂.brk := by
      rw [hbrk]
      omega
    have hold : pages₃ i = pages₂ i := if_neg hne
    rw [hold]
    by_cases hin : i = n
    · subst i
      simp [pages₂, Heap.put_apply, h₁, hn0, flagOn, linkTo]
    by_cases hi0 : i = 0
    · subst i
      rw [h₂, if_neg hin, if_pos rfl, if_pos (by omega)]
    · rw [show pages₂ i = c.pages i from (Heap.put_of_ne hin).trans (Heap.put_of_ne hi0),
        hc.pages i hi, if_pos (by omega), if_neg hin, if_neg hi0]
  have hreader : pages₃ (n + 1) = some ⟨none, linkTo 0, some n⟩ := if_pos hbrk.symm
  have hrange : List.range (n + 1) = 0 :: (List.range n).map Nat.succ :=
    List.range_succ_eq_map
  refine ⟨{
    pages := pages₃
    head := 0
    tail := 0
    commit := 0
    reader := n + 1
    freeValueCb := false
    size := n
    mode := mode
    writes := 0
    reads := 0
    isEmpty := true
    freed := [] }, (List.range n).map Nat.succ, ?_,
    ⟨?_, by simp, hmin, by simp, ?_, ⟨_, hreader, rfl⟩, ?_, rfl, by simp, rfl⟩,
    hn, rfl, rfl⟩
  · have hpages : addPages (n + 1) { pages := Heap.empty, head := none, tail := none } =
        some c := by
      simp [addPages, hrun₁, hrun]
    simp only [rqueueCreate, hsize, Option.bind_eq_bind, hpages, Option.bind_some, hc.head,
      hc.tail, Nat.add_sub_cancel, Heap.modify_eq_some _ hfirst]
    rw [show c.pages.put 0 _ = pages₁ from rfl, Heap.modify_eq_some _ h₁]
    simp only [Option.bind_some]
    rw [show pages₁.put n _ = pages₂ from rfl, h₂]
    simp only [Option.bind_some, Heap.alloc_snd, hbrk]
    rfl
  · rw [← hrange]
    apply ringed_range
    intro i hi
    simp only [pageLinks, h₃ i hi, Option.map_some]
    by_cases hin : i = n
    · simp [hin]
    · simp [hin]
  · rw [← hrange]
    apply List.ext_getElem?
    intro i
    rw [List.getElem?_map, List.map_nil, List.nil_append, List.getElem?_replicate]
    by_cases hi : i < n + 1
    · rw [List.getElem?_range hi, if_pos hi, Option.map_some, valueAt, h₃ i hi]
      rfl
    · rw [if_neg hi, List.getElem?_eq_none (by simpa using hi)]
      rfl
  · rw [← hrange, List.mem_range]
    exact Nat.lt_irrefl _

/-! ## One call -/

/-- The values a queue has not handed out: released, stored, and left over. -/
def held (rb : RQueue V) (q : List V) (rest : List (Option V)) : List V :=
  rb.freed ++ (q ++ rest.reduceOption)

/-- A round that ends in a `continue`. -/
theorem writeLoop_again {rb rb' : RQueue V} {retries retries' : ℕ}
    (hround : rb.writeRound retries = some (rb', .again retries'))
    (hlt : retries' < writerCasMaxRetries) (n : ℕ) :
    writeLoop (n + 1) retries rb = writeLoop n (retries' + 1) rb' := by
  simp only [writeLoop, hround, Option.bind_eq_bind, Option.bind_some, if_pos hlt]

namespace RingInv

variable {rb : RQueue V} {ps : List Addr} {q : List V} {rest : List (Option V)}

/-- The end of `rqueue_write`, on the page claimed by the loop. -/
theorem finish_eq (h : RingInv rb ps q rest) (hroom : q.length < rb.size) (n retries : ℕ)
    (v : V) :
    ∃ rb₁ rb₂ tail rest', writeLoop (n + 1) retries rb = some (rb₁, .inr tail) ∧
      rb₁.rqueueUpdateValue tail v = some rb₂ ∧
      RingInv { rb₂ with writes := rb₂.writes + 1, isEmpty := false, commit := tail }
        ps (q ++ [v]) rest' ∧
      SameSettings rb rb₂ ∧
      (rb.freeValueCb = true →
        (held rb₂ (q ++ [v]) rest').Perm (v :: held rb q rest)) := by
  obtain ⟨next, hnext, hloop⟩ := h.writeLoop_room hroom n retries
  obtain ⟨r, rest', rfl⟩ : ∃ r rest', rest = r :: rest' := by
    have hlen := h.rest_length
    exact List.exists_cons_of_length_pos (by omega)
  obtain ⟨rb₂, hstore, hinv, hset, hfreed⟩ := h.store_eq hnext v
  refine ⟨_, rb₂, rb.tail, rest', hloop, hstore, hinv, hset, ?_⟩
  intro hcb
  rw [if_pos hcb] at hfreed
  have hrest : (r :: rest').reduceOption = r.toList ++ rest'.reduceOption := by
    cases r with
    | none => rfl
    | some x => rfl
  rw [held, held, hfreed, hrest]
  classical
  rw [List.perm_iff_count]
  intro x
  simp only [List.count_append, List.count_cons, List.count_nil]
  omega

/-- A call of `rqueue_write` answers as the reference does, and accounts for the
value. -/
theorem rqueueWrite_eq (h : RingInv rb ps q rest) (v : V) :
    ∃ rb' ps' rest' rc, rb.rqueueWrite v = some (rb', rc) ∧
      (fifoRef rb.size (q, rb.mode) (.write v)).2 = .code rc ∧
      RingInv rb' ps' (fifoRef rb.size (q, rb.mode) (.write v)).1.1 rest' ∧
      (fifoRef rb.size (q, rb.mode) (.write v)).1.2 = rb.mode ∧ SameSettings rb rb' ∧
      (rb.freeValueCb = true →
        (held rb' (fifoRef rb.size (q, rb.mode) (.write v)).1.1 rest').Perm
          (writtenBy (.write v) (.code rc) ++ held rb q rest)) := by
  by_cases hroom : q.length < rb.size
  · obtain ⟨rb₁, rb₂, tail, rest', hloop, hstore, hinv, hset, hheld⟩ :=
      h.finish_eq hroom writerCasMaxRetries 0 v
    have href : fifoRef rb.size (q, rb.mode) (.write v) = ((q ++ [v], rb.mode), .code 0) := by
      simp [fifoRef, hroom]
    rw [href]
    exact ⟨_, ps, rest', 0, by simp [rqueueWrite, hloop, hstore], rfl, hinv, rfl,
      ⟨hset.freeValueCb, hset.size, hset.mode⟩, hheld⟩
  have hfull : q.length = rb.size := by
    have := h.fits
    omega
  cases hmode : rb.mode with
  | blocking =>
      have hloop := h.writeLoop_blocking hfull hmode 50 50 (by decide)
      have href : fifoRef rb.size (q, RQueueMode.blocking) (.write v) =
          ((q, .blocking), .code (-2)) := by
        simp [fifoRef, hroom]
      rw [href]
      refine ⟨rb, ps, rest, -2, ?_, rfl, h, rfl, ⟨rfl, rfl, rfl⟩, fun _ => ?_⟩
      · have hloop' : writeLoop (writerCasMaxRetries + 1) 0 rb = some (rb, .inl (-2)) := hloop
        simp [rqueueWrite, hloop']
      · exact List.Perm.refl _
  | overwrite =>
      obtain ⟨w, q', rfl⟩ : ∃ w q', q = w :: q' := by
        have := h.minSize
        exact List.exists_cons_of_length_pos (by omega)
      obtain ⟨rb₀, ps₀, hadv, hinv₀, hset₀, hfreed₀⟩ := h.advanceHead_eq hfull
      have hroom₀ : q'.length < rb₀.size := by
        rw [hset₀.size, ← hfull]
        exact Nat.lt_succ_self _
      obtain ⟨rb₁, rb₂, tail, rest', hloop, hstore, hinv, hset, hheld⟩ :=
        hinv₀.finish_eq hroom₀ 99 1 v
      have href : fifoRef rb.size (w :: q', RQueueMode.overwrite) (.write v) =
          ((q' ++ [v], .overwrite), .code 0) := by
        simp only [fifoRef, if_neg hroom, List.tail_cons]
      rw [href]
      have hset' := hset₀.trans hset
      refine ⟨_, ps₀, rest', 0, ?_, rfl, hinv, rfl,
        ⟨hset'.freeValueCb, hset'.size, hset'.mode⟩, fun hcb => ?_⟩
      · have hround := h.writeRound_overwrite hfull hmode 0
        rw [hadv] at hround
        have hagain := writeLoop_again hround (by decide) writerCasMaxRetries
        have hmax : writerCasMaxRetries = 99 + 1 := rfl
        have hloop' : writeLoop (writerCasMaxRetries + 1) 0 rb = some (rb₁, .inr tail) := by
          rw [hagain, hmax, hloop]
        simp [rqueueWrite, hloop', hstore]
      · have hsplit := hheld (hset₀.freeValueCb.trans hcb)
        refine hsplit.trans ?_
        rw [held, held, hfreed₀, List.reduceOption_append]
        classical
        rw [List.perm_iff_count]
        intro x
        simp only [writtenBy, List.count_append, List.count_cons, List.count_nil,
          List.reduceOption_singleton, Option.toList_some, if_true]
        omega

/-- Every call succeeds, answers as the reference does, and accounts for the
values. -/
theorem step_eq (h : RingInv rb ps q rest) (op : Op V) :
    ∃ rb' ps' rest',
      step rb op = some (rb', (fifoRef rb.size (q, rb.mode) op).2) ∧
      RingInv rb' ps' (fifoRef rb.size (q, rb.mode) op).1.1 rest' ∧
      rb'.mode = (fifoRef rb.size (q, rb.mode) op).1.2 ∧ rb'.size = rb.size ∧
      rb'.freeValueCb = rb.freeValueCb ∧
      (rb.freeValueCb = true →
        (returnedBy (fifoRef rb.size (q, rb.mode) op).2 ++
            held rb' (fifoRef rb.size (q, rb.mode) op).1.1 rest').Perm
          (writtenBy op (fifoRef rb.size (q, rb.mode) op).2 ++ held rb q rest)) := by
  cases op with
  | write v =>
      obtain ⟨rb', ps', rest', rc, hrun, hrc, hinv, hmode, hset, hheld⟩ := h.rqueueWrite_eq v
      refine ⟨rb', ps', rest', by simp [step, hrun, hrc], hinv, hset.mode.trans hmode.symm,
        hset.size, hset.freeValueCb, fun hcb => ?_⟩
      rw [hrc]
      exact hheld hcb
  | read =>
      obtain ⟨rb', ps', rest', hrun, hinv, hset, hfreed, hrest⟩ := h.rqueueRead_eq
      refine ⟨rb', ps', rest', by simp [step, hrun, fifoRef], hinv, hset.mode, hset.size,
        hset.freeValueCb, fun _ => ?_⟩
      simp only [fifoRef, returnedBy, writtenBy, held, hfreed, hrest, List.nil_append]
      cases q with
      | nil => exact List.Perm.refl _
      | cons v q =>
          simp only [List.head?_cons, Option.toList_some, List.tail_cons, List.cons_append,
            List.nil_append]
          exact List.perm_middle.symm
  | isempty =>
      refine ⟨rb, ps, rest, ?_, h, rfl, rfl, rfl, fun _ => List.Perm.refl _⟩
      simp [step, fifoRef, rqueueIsempty, h.isEmpty]
  | setMode mode =>
      refine ⟨rb.rqueueSetMode mode, ps, rest, rfl, ?_, rfl, rfl, rfl,
        fun _ => List.Perm.refl _⟩
      exact ⟨h.ringed, h.length, h.minSize, h.fits, h.values, h.reader, h.outside, h.tail,
        h.commit, h.isEmpty⟩

/-- The same for a whole run. -/
theorem run_eq :
    ∀ (ops : List (Op V)) {rb : RQueue V} {ps : List Addr} {q : List V}
      {rest : List (Option V)}, RingInv rb ps q rest →
      ∃ rb' ps' rest',
        runSteps step rb ops =
          some (rb', (refRun (fifoRef rb.size) (q, rb.mode) ops).2) ∧
        RingInv rb' ps' (refRun (fifoRef rb.size) (q, rb.mode) ops).1.1 rest' ∧
        rb'.freeValueCb = rb.freeValueCb ∧
        (rb.freeValueCb = true →
          (returned (refRun (fifoRef rb.size) (q, rb.mode) ops).2 ++
              held rb' (refRun (fifoRef rb.size) (q, rb.mode) ops).1.1 rest').Perm
            (written ops (refRun (fifoRef rb.size) (q, rb.mode) ops).2 ++
              held rb q rest)) := by
  intro ops
  induction ops with
  | nil =>
      intro rb ps q rest h
      exact ⟨rb, ps, rest, rfl, h, rfl, fun _ => List.Perm.refl _⟩
  | cons op ops ih =>
      intro rb ps q rest h
      obtain ⟨rb₁, ps₁, rest₁, hstep, hinv₁, hmode₁, hsize₁, hcb₁, hheld₁⟩ := h.step_eq op
      obtain ⟨rb₂, ps₂, rest₂, hrun, hinv₂, hcb₂, hheld₂⟩ := ih hinv₁
      rw [hsize₁, hmode₁] at hrun hinv₂ hheld₂
      refine ⟨rb₂, ps₂, rest₂, ?_, hinv₂, hcb₂.trans hcb₁, fun hcb => ?_⟩
      · rw [runSteps_cons_of_step hstep, hrun]
        rfl
      · have hfirst := hheld₁ hcb
        have hlater := hheld₂ (hcb₁.trans hcb)
        have hout : ∀ (o : Out V) (os : List (Out V)),
            returned (o :: os) = returnedBy o ++ returned os := fun o os => rfl
        have hin : ∀ (o : Out V) (os : List (Out V)),
            written (op :: ops) (o :: os) = writtenBy op o ++ written ops os :=
          fun o os => rfl
        rw [refRun, hout, hin, List.append_assoc, List.append_assoc]
        refine (hlater.append_left _).trans ?_
        refine (List.perm_append_comm_assoc _ _ _).trans ?_
        exact (hfirst.append_left _).trans (List.perm_append_comm_assoc _ _ _)

/-! ## Destruction -/

theorem rqueueDestroyPage_eq {rb : RQueue V} {a : Addr} {p : RQueuePage V}
    (hp : rb.pages a = some p) :
    rb.rqueueDestroyPage a = some { rb with
      pages := rb.pages.kill a
      freed := rb.freed ++ if rb.freeValueCb then p.value.toList else [] } := by
  by_cases hcb : rb.freeValueCb
  · simp [rqueueDestroyPage, hp, Heap.free, callFreeValueCb, hcb]
  · simp [rqueueDestroyPage, hp, Heap.free, callFreeValueCb, hcb]

/-- The loop frees the pages from some position of the ring to its end. -/
theorem destroyLoop_eq {pages : Heap (RQueuePage V)} {ring : List Addr} {first : Addr}
    (hring : Ringed (pageLinks pages) ring) (hfirst : ring[0]? = some first) :
    ∀ (suf pre : List Addr) (rb : RQueue V) (n : ℕ), ring = pre ++ suf → suf ≠ [] →
      suf.length ≤ n → rb.head = first → (∀ a ∈ suf, rb.pages a = pages a) →
      ∃ rb', destroyLoop n (suf.headD 0) rb = some rb' ∧
        rb'.freeValueCb = rb.freeValueCb ∧ rb'.reader = rb.reader ∧
        (∀ a, a ∉ suf → rb'.pages a = rb.pages a) ∧
        (rb.freeValueCb = true →
          rb'.freed = rb.freed ++ (suf.map (valueAt pages)).reduceOption) := by
  intro suf
  induction suf with
  | nil =>
      intro pre rb n _ hne
      exact absurd rfl hne
  | cons a suf ih =>
      intro pre rb n hsplit _ hn hhead hpages
      obtain ⟨m, rfl⟩ : ∃ m, n = m + 1 := ⟨n - 1, by
        rw [List.length_cons] at hn
        omega⟩
      have hpos : ring[pre.length]? = some a := by
        rw [hsplit, List.getElem?_append_right (Nat.le_refl _), Nat.sub_self]
        rfl
      have hnd := hring.nodup
      rw [hsplit, List.nodup_append, List.nodup_cons] at hnd
      obtain ⟨p, hp, hpn, -⟩ := eq_some_of_pageLinks (hring.links _ _ hpos)
      have hlive : rb.pages a = some p := (hpages a (by simp)).trans hp
      have hvalue : valueAt pages a = p.value := by
        simp [valueAt, hp]
      have hred : ∀ l : List (Option V), (p.value :: l).reduceOption =
          p.value.toList ++ l.reduceOption := by
        intro l
        cases p.value with
        | none => rfl
        | some x => rfl
      have hkill : ∀ z, z ≠ a → rb.pages.kill a z = rb.pages z := by
        intro z hz
        simp [Heap.kill_apply, hz]
      cases suf with
      | nil =>
          have hnext : p.next.page = some first := by
            rw [hpn, ringNext, if_pos (by rw [hsplit, List.length_append]; rfl)]
            exact hfirst
          refine ⟨{ rb with
              pages := rb.pages.kill a
              freed := rb.freed ++ if rb.freeValueCb then p.value.toList else [] },
            ?_, rfl, rfl, ?_, ?_⟩
          · simp only [destroyLoop, List.headD_cons, hlive, hnext, Option.bind_eq_bind,
              Option.bind_some, rqueueDestroyPage_eq hlive, hhead, if_true]
          · intro z hz
            exact hkill z (by simpa using hz)
          · intro hcb
            have hnil : ([] : List (Option V)).reduceOption = [] := rfl
            simp only [List.map_cons, List.map_nil, hvalue, hcb, if_true]
            rw [hred, hnil, List.append_nil]
      | cons b suf =>
          have hnext : p.next.page = some b := by
            have hlt : ¬ pre.length + 1 = ring.length := by
              rw [hsplit, List.length_append, List.length_cons, List.length_cons]
              omega
            rw [hpn, ringNext, if_neg hlt, hsplit,
              List.getElem?_append_right (Nat.le_succ _), Nat.succ_sub (Nat.le_refl _),
              Nat.sub_self]
            rfl
          have hne : b ≠ first := by
            rintro rfl
            have hb : ring[pre.length + 1]? = some b := by
              rw [hsplit, List.getElem?_append_right (Nat.le_succ _),
                Nat.succ_sub (Nat.le_refl _), Nat.sub_self]
              rfl
            exact Nat.succ_ne_zero _ (index_unique hring.nodup hb hfirst)
          obtain ⟨rb', hrun, hcb', hreader', hkeep, hfreed⟩ := ih (pre ++ [a])
            { rb with
              pages := rb.pages.kill a
              freed := rb.freed ++ if rb.freeValueCb then p.value.toList else [] } m
            (by rw [hsplit, List.append_assoc]; rfl) (by simp)
            (by rw [List.length_cons] at hn; omega) hhead (by
              intro z hz
              have hza : z ≠ a := fun heq => hnd.2.1.1 (heq ▸ hz)
              rw [hkill z hza]
              exact hpages z (by simp [List.mem_cons.mp hz]))
          refine ⟨rb', ?_, hcb', hreader', ?_, ?_⟩
          · rw [List.headD_cons] at hrun
            simp only [destroyLoop, List.headD_cons, hlive, hnext, Option.bind_eq_bind,
              Option.bind_some, rqueueDestroyPage_eq hlive, hhead, if_neg hne]
            rw [hhead] at hrun
            exact hrun
          · intro z hz
            rw [List.mem_cons, not_or] at hz
            rw [hkeep z hz.2]
            exact hkill z hz.1
          · intro hcb
            rw [hfreed hcb]
            have hcons : (a :: b :: suf).map (valueAt pages) =
                p.value :: (b :: suf).map (valueAt pages) := by
              rw [List.map_cons, hvalue]
            simp only [hcb, if_true]
            rw [hcons, hred, List.append_assoc]

theorem ring_length_le (h : RingInv rb ps q rest) :
    (rb.head :: ps).length ≤ rb.pages.brk := by
  have hsub : (rb.head :: ps).toFinset ⊆ Finset.range rb.pages.brk := by
    intro a ha
    obtain ⟨i, hi⟩ := List.mem_iff_getElem?.mp (List.mem_toFinset.mp ha)
    obtain ⟨p, hp, -⟩ := eq_some_of_pageLinks (h.ringed.links _ _ hi)
    exact Finset.mem_range.mpr (Heap.lt_brk_of_eq_some hp)
  have hcard := Finset.card_le_card hsub
  rwa [List.toFinset_card_of_nodup h.ringed.nodup, Finset.card_range] at hcard

/-- `rqueue_destroy` ends, and releases every value still held. -/
theorem rqueueDestroy_eq (h : RingInv rb ps q rest) :
    ∃ freed, rb.rqueueDestroy = some freed ∧
      (rb.freeValueCb = true → freed = held rb q rest) := by
  obtain ⟨rb', hrun, hcb', hreader', hkeep, hfreed⟩ := destroyLoop_eq h.ringed rfl
    (rb.head :: ps) [] rb rb.pages.brk rfl (by simp) h.ring_length_le rfl fun _ _ => rfl
  obtain ⟨p, hp, hpnone⟩ := h.reader
  have hlive : rb'.pages rb'.reader = some p := by
    rw [hreader', hkeep rb.reader h.outside]
    exact hp
  have hred : (q.map some ++ rest).reduceOption = q ++ rest.reduceOption := by
    rw [List.reduceOption_append, List.reduceOption, List.filterMap_map, Function.id_comp,
      List.filterMap_some]
  rw [List.headD_cons] at hrun
  refine ⟨rb'.freed ++ if rb'.freeValueCb then p.value.toList else [], ?_, ?_⟩
  · simp only [rqueueDestroy, hrun, Option.bind_eq_bind, Option.bind_some,
      rqueueDestroyPage_eq hlive]
  intro hcb
  simp only [hpnone, Option.toList_none, ite_self, List.append_nil]
  rw [hfreed hcb, h.values, hred]
  rfl

end RingInv

/-- Every run on a new queue, with any size argument, mode and callback, answers
as a queue of capacity `max size 2`; destroying the queue then succeeds, and if
a callback is set, the values written are, each exactly once, those returned by
reads and those passed to the callback. -/
theorem rqueue_refines_fifo (size : ℕ) (mode : RQueueMode) (cb : Bool)
    (ops : List (Op V)) :
    ∃ rb₀ rb freed, rqueueCreate size mode = some rb₀ ∧
      runSteps step (rb₀.rqueueSetFreeValueCallback cb) ops =
        some (rb, (refRun (fifoRef (max size 2)) ([], mode) ops).2) ∧
      rb.rqueueDestroy = some freed ∧
      (cb = true → (written ops (refRun (fifoRef (max size 2)) ([], mode) ops).2).Perm
        (returned (refRun (fifoRef (max size 2)) ([], mode) ops).2 ++ freed)) := by
  obtain ⟨rb₀, ps₀, hcreate, h₀, hsize, hmode, hfreed⟩ := rqueueCreate_eq (V := V) size mode
  have hinit : RingInv (rb₀.rqueueSetFreeValueCallback cb) ps₀ []
      (List.replicate (rb₀.size + 1) none) :=
    ⟨h₀.ringed, h₀.length, h₀.minSize, h₀.fits, h₀.values, h₀.reader, h₀.outside, h₀.tail,
      h₀.commit, h₀.isEmpty⟩
  obtain ⟨rb, ps, rest, hrun, hinv, hcb, hheld⟩ := RingInv.run_eq ops hinit
  obtain ⟨freed, hdestroy, hall⟩ := hinv.rqueueDestroy_eq
  have hsize' : (rb₀.rqueueSetFreeValueCallback cb).size = max size 2 := hsize
  have hmode' : (rb₀.rqueueSetFreeValueCallback cb).mode = mode := hmode
  rw [hsize', hmode'] at hrun hheld hall
  refine ⟨rb₀, rb, freed, hcreate, hrun, hdestroy, ?_⟩
  intro hset
  have hnone : held (rb₀.rqueueSetFreeValueCallback cb) ([] : List V)
      (List.replicate (rb₀.size + 1) none) = [] := by
    simp [held, rqueueSetFreeValueCallback, hfreed, List.reduceOption]
  have hperm := hheld hset
  rw [hnone, List.append_nil, ← hall (hcb.trans hset)] at hperm
  exact hperm.symm

end RQueue
end LibHL
