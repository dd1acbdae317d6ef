import LibHL.RQueue.Model
import LibHL.Support.Ring
import Mathlib.Data.List.ReduceOption

/-!
# The ring invariant of the ring queue

The stored values are the values of the first pages of the ring, from the head
up to the tail.  The pages from the tail on may still carry values that an
overwriting write dropped; they are let go when their page is written again or
destroyed.  The reader page is outside of the ring and carries none.
-/

namespace LibHL
namespace RQueue

variable {V : Type}

/-- The pointers of the pages. -/
def pageLinks (pages : Heap (RQueuePage V)) (a : Addr) : Option RingLinks :=
  (pages a).map fun p => ⟨p.next.page, p.next.head, p.prev⟩

/-- The value on a page. -/
def valueAt (pages : Heap (RQueuePage V)) (a : Addr) : Option V :=
  (pages a).bind RQueuePage.value

/-- The queue stores `q`.  The pages after the head are `ps`, and `rest` are the
values left on the pages that store nothing. -/
structure RingInv (rb : RQueue V) (ps : List Addr) (q : List V) (rest : List (Option V)) :
    Prop where
  ringed : Ringed (pageLinks rb.pages) (rb.head :: ps)
  length : ps.length = rb.size
  minSize : 2 ≤ rb.size
  fits : q.length ≤ rb.size
  values : (rb.head :: ps).map (valueAt rb.pages) = q.map some ++ rest
  reader : ∃ p, rb.pages rb.reader = some p ∧ p.value = none
  outside : rb.reader ∉ rb.head :: ps
  tail : (rb.head :: ps)[q.length]? = some rb.tail
  commit : 0 < q.length → (rb.head :: ps)[q.length - 1]? = some rb.commit
  isEmpty : rb.isEmpty = q.isEmpty

/-- What reads and writes leave alone. -/
structure SameSettings (rb rb' : RQueue V) : Prop where
  freeValueCb : rb'.freeValueCb = rb.freeValueCb
  size : rb'.size = rb.size
  mode : rb'.mode = rb.mode

theorem SameSettings.trans {rb₁ rb₂ rb₃ : RQueue V} (h : SameSettings rb₁ rb₂)
    (h' : SameSettings rb₂ rb₃) : SameSettings rb₁ rb₃ :=
  ⟨h'.freeValueCb.trans h.freeValueCb, h'.size.trans h.size, h'.mode.trans h.mode⟩

theorem eq_some_of_pageLinks {pages : Heap (RQueuePage V)} {a : Addr} {l : RingLinks}
    (h : pageLinks pages a = some l) :
    ∃ p, pages a = some p ∧ p.next = ⟨l.next, l.closing⟩ ∧ p.prev = l.prev := by
  obtain ⟨p, hp, rfl⟩ := Option.map_eq_some_iff.mp h
  exact ⟨p, hp, rfl, rfl⟩

/-- Writing one page of the ring changes one value of the ring. -/
theorem map_valueAt_put {pages : Heap (RQueuePage V)} {ring : List Addr}
    (hnd : ring.Nodup) {i : ℕ} {a : Addr} (hi : ring[i]? = some a) {p p' : RQueuePage V}
    (hp : pages a = some p) :
    ring.map (valueAt (pages.put a p')) = (ring.map (valueAt pages)).set i p'.value := by
  apply List.ext_getElem?
  intro j
  rw [List.getElem?_set, List.getElem?_map, List.getElem?_map, List.length_map]
  by_cases hij : i = j
  · subst j
    obtain ⟨hlt, hget⟩ := List.getElem?_eq_some_iff.mp hi
    simp [hlt, hget, valueAt, Heap.put_apply, hp]
  · rw [if_neg hij]
    cases hj : ring[j]? with
    | none => rfl
    | some b =>
        have hba : b ≠ a := by
          rintro rfl
          exact hij (index_unique hnd hi hj)
        simp [valueAt, Heap.put_apply, hba]

namespace RingInv

variable {rb : RQueue V} {ps : List Addr} {q : List V} {rest : List (Option V)}

theorem rest_length (h : RingInv rb ps q rest) : q.length + rest.length = rb.size + 1 := by
  have hlen := congrArg List.length h.values
  simp only [List.length_map, List.length_cons, List.length_append, h.length] at hlen
  omega

/-! ## Reading -/

/-- A read of a queue that stores something takes the oldest value, and puts the
old reader page at the end of the ring. -/
theorem swapReader_eq {v : V} (h : RingInv rb ps (v :: q) rest) :
    ∃ rb' ps', rb.swapReader = some (rb', some v) ∧
      RingInv rb' ps' q (rest ++ [none]) ∧ SameSettings rb rb' ∧
      rb'.freed = rb.freed := by
  obtain ⟨n, hn⟩ : ∃ n, ps.length = n + 2 := ⟨rb.size - 2, by
    have := h.length
    have := h.minSize
    omega⟩
  obtain ⟨x, ps', rfl⟩ : ∃ x ps', ps = x :: ps' :=
    List.exists_cons_of_length_pos (by omega)
  obtain ⟨y, hy⟩ : ∃ y, (x :: ps')[n + 1]? = some y :=
    ⟨_, List.getElem?_eq_getElem (by omega)⟩
  obtain ⟨r, hr, hrnone⟩ := h.reader
  have hnd := h.ringed.nodup
  rw [List.nodup_cons, List.nodup_cons] at hnd
  have hymem : y ∈ ps' := List.mem_of_getElem? (i := n) hy
  have hax : rb.head ≠ x := fun heq => hnd.1 (by simp [heq])
  have hay : rb.head ≠ y := fun heq => hnd.1 (by simp [heq, hymem])
  have hxy : x ≠ y := fun heq => hnd.2.1 (heq ▸ hymem)
  have hra : rb.reader ≠ rb.head := fun heq => h.outside (by simp [heq])
  have hrx : rb.reader ≠ x := fun heq => h.outside (by simp [heq])
  have hry : rb.reader ≠ y := fun heq => h.outside (by simp [heq, hymem])
  obtain ⟨ph, hph, hphn, hphp⟩ :=
    eq_some_of_pageLinks (h.ringed.links_first (by simp))
  obtain ⟨px, hpx, hpxn, hpxp⟩ :=
    eq_some_of_pageLinks (h.ringed.links_inner (i := 0) (by omega) rfl)
  obtain ⟨py, hpy, hpyn, hpyp⟩ :=
    eq_some_of_pageLinks (h.ringed.links_last (i := n + 1) (by omega) hy)
  have hval : ph.value = some v := by
    have hvals := congrArg List.head? h.values
    simpa [valueAt, hph] using hvals
  -- The pages after the swap, in the order of the stores.
  let pages₁ := rb.pages.put rb.reader { r with next := flagOn ph.next, prev := ph.prev }
  let pages₂ := pages₁.put y { py with next := linkTo rb.reader }
  let pages₃ := pages₂.put x { px with prev := some rb.reader }
  let pages₄ := pages₃.put rb.head { ph with value := none }
  have h₁ : ∀ z, z ≠ rb.reader → pages₁ z = rb.pages z := fun z hz => Heap.put_of_ne hz
  have h₂y : pages₁ y = some py := (h₁ y hry.symm).trans hpy
  have h₂x : pages₂ x = some px := (Heap.put_of_ne hxy).trans ((h₁ x hrx.symm).trans hpx)
  have h₃ : pages₃ rb.head = some ph :=
    (Heap.put_of_ne hax).trans ((Heap.put_of_ne hay).trans ((h₁ _ hra.symm).trans hph))
  have hreader : pages₄ rb.reader =
      some { r with next := flagOn ph.next, prev := ph.prev } :=
    (Heap.put_of_ne hra).trans ((Heap.put_of_ne hrx).trans ((Heap.put_of_ne hry).trans
      (Heap.put_self hr)))
  have hold : pages₄ rb.head = some { ph with value := none } := Heap.put_self h₃
  have hx : pages₄ x = some { px with prev := some rb.reader } :=
    (Heap.put_of_ne hax.symm).trans (Heap.put_self h₂x)
  have hlast : pages₄ y = some { py with next := linkTo rb.reader } :=
    (Heap.put_of_ne hay.symm).trans ((Heap.put_of_ne hxy.symm).trans (Heap.put_self h₂y))
  have hother : ∀ z, z ≠ rb.head → z ≠ x → z ≠ y → z ≠ rb.reader →
      pages₄ z = rb.pages z := fun z hz₁ hz₂ hz₃ hz₄ =>
    (Heap.put_of_ne hz₁).trans ((Heap.put_of_ne hz₂).trans ((Heap.put_of_ne hz₃).trans
      (h₁ z hz₄)))
  let rb' : RQueue V := { rb with
    pages := pages₄
    head := x
    reader := rb.head
    reads := rb.reads + 1
    isEmpty := rb.isEmpty || decide (x = rb.tail) }
  refine ⟨rb', ps' ++ [rb.reader], ?_, ⟨?_, ?_, h.minSize, ?_, ?_, ⟨_, hold, rfl⟩, ?_, ?_,
    ?_, ?_⟩, ⟨rfl, rfl, rfl⟩, rfl⟩
  · have hcas : casNext pages₁ y (flagOn (linkTo rb.head)) (linkTo rb.reader) =
        some (pages₂, true) := by
      simp [casNext, h₂y, hpyn, flagOn, linkTo, pages₂]
    have hnext : asPage ph.next = some x := by
      simp [asPage, hphn]
    have hprev : ph.prev = some y := by
      rw [hphp, ← hy, hn]
      rfl
    simp only [swapReader, hph, hr, hprev, Option.bind_eq_bind, Option.bind_some]
    rw [show rb.pages.put rb.reader { r with next := flagOn ph.next, prev := some y } =
      pages₁ by rw [← hprev], hcas]
    simp only [Option.bind_some, if_true, hnext, Heap.modify_eq_some _ h₂x]
    rw [show (pages₂.put x { px with prev := some rb.reader }) rb.head = some ph from h₃]
    simp only [Option.bind_some, hval]
    rfl
  · refine h.ringed.advance hn (fun hmem => h.outside (by simp [hmem])) ?_ ?_ ?_ ?_
    · simp [pageLinks, rb', hreader, hphn, hphp, flagOn, hn]
    · intro z hz
      cases hz
      simp [pageLinks, rb', hx, hpxn]
    · intro z hz
      rw [hy] at hz
      cases hz
      simp [pageLinks, rb', hlast, hpyp, linkTo]
    · intro i z hi hz
      have hzmem : z ∈ ps' := List.mem_of_getElem? (i := i) hz
      have hzx : z ≠ x := fun heq => hnd.2.1 (heq ▸ hzmem)
      have hzy : z ≠ y := by
        rintro rfl
        have := index_unique (List.nodup_cons.mpr hnd.2) hz hy
        omega
      have hza : z ≠ rb.head := fun heq => hnd.1 (by simp [← heq, hzmem])
      have hzr : z ≠ rb.reader := fun heq => h.outside (by simp [← heq, hzmem])
      simp only [pageLinks, rb', hother z hza hzx hzy hzr]
  · have hlen := h.length
    rw [List.length_append]
    exact hlen
  · have hfits := h.fits
    rw [List.length_cons] at hfits
    exact Nat.le_of_succ_le hfits
  · have hsame : ∀ z ∈ x :: ps', valueAt pages₄ z = valueAt rb.pages z := by
      intro z hz
      have hza : z ≠ rb.head := fun heq => hnd.1 (heq ▸ hz)
      have hzr : z ≠ rb.reader := fun heq => h.outside (by simp [← heq, List.mem_cons.mp hz])
      by_cases hzx : z = x
      · rw [hzx, valueAt, valueAt, hx, hpx]
        rfl
      by_cases hzy : z = y
      · rw [hzy, valueAt, valueAt, hlast, hpy]
        rfl
      · rw [valueAt, valueAt, hother z hza hzx hzy hzr]
    have hvals : (x :: ps').map (valueAt rb.pages) = q.map some ++ rest :=
      (List.cons.inj h.values).2
    have hnone : valueAt pages₄ rb.reader = none := by
      simp [valueAt, hreader, hrnone]
    rw [← List.cons_append, List.map_append, List.map_congr_left hsame, hvals,
      List.append_assoc, List.map_singleton, hnone]
  · rw [← List.cons_append, List.mem_append, List.mem_singleton]
    rintro (hmem | heq)
    · exact hnd.1 hmem
    · exact hra heq.symm
  · have htail : (x :: ps')[q.length]? = some rb.tail := h.tail
    rw [← List.cons_append, List.getElem?_append_left
      (List.getElem?_eq_some_iff.mp htail).1]
    exact htail
  · intro hpos
    obtain ⟨m, hm⟩ := Nat.exists_eq_succ_of_ne_zero (Nat.ne_of_gt hpos)
    have hcommit : (x :: ps')[m]? = some rb.commit := by
      have hc := h.commit (by simp)
      simpa [hm] using hc
    rw [hm, Nat.succ_sub_one, ← List.cons_append, List.getElem?_append_left
      (List.getElem?_eq_some_iff.mp hcommit).1]
    exact hcommit
  · have htail : (x :: ps')[q.length]? = some rb.tail := h.tail
    have hiff : x = rb.tail ↔ q.length = 0 := by
      constructor
      · intro heq
        rw [← heq] at htail
        exact index_unique (List.nodup_cons.mpr hnd.2) htail rfl
      · intro hzero
        rw [hzero] at htail
        exact Option.some.inj htail
    have hempty : rb.isEmpty = false := h.isEmpty
    rw [Bool.eq_iff_iff, List.isEmpty_iff_length_eq_zero, ← hiff]
    simp [rb', hempty]

theorem readLoop_empty (h : RingInv rb ps [] rest) (n : ℕ) :
    readLoop n rb = some (rb, none) := by
  have hempty : rb.isEmpty = true := h.isEmpty
  induction n with
  | zero => rfl
  | succ n ih => simp [readLoop, hempty, ih]

theorem reader_ne_commit (h : RingInv rb ps q rest) (hpos : 0 < q.length) :
    rb.reader ≠ rb.commit := by
  intro heq
  apply h.outside
  rw [heq]
  exact List.mem_of_getElem? (h.commit hpos)

/-- `rqueue_read` returns the oldest value, or null when there is none. -/
theorem rqueueRead_eq (h : RingInv rb ps q rest) :
    ∃ rb' ps' rest', rb.rqueueRead = some (rb', q.head?) ∧
      RingInv rb' ps' q.tail rest' ∧ SameSettings rb rb' ∧ rb'.freed = rb.freed ∧
      rest'.reduceOption = rest.reduceOption := by
  cases q with
  | nil =>
      exact ⟨rb, ps, rest, h.readLoop_empty _, h, ⟨rfl, rfl, rfl⟩, rfl, rfl⟩
  | cons v q =>
      obtain ⟨rb', ps', hrun, hinv, hset, hfreed⟩ := h.swapReader_eq
      have hcommit := h.reader_ne_commit (by simp)
      have hempty : rb.isEmpty = false := h.isEmpty
      refine ⟨rb', ps', rest ++ [none], ?_, hinv, hset, hfreed, ?_⟩
      · have hround : ∀ n, readLoop (n + 1) rb = some (rb', some v) := by
          intro n
          simp [readLoop, hcommit, hempty, hrun]
        exact hround 1499
      · rw [List.reduceOption_append]
        exact List.append_nil _

/-! ## Writing -/

/-- The overwriting step drops the oldest value of a full queue; its page, with
the value still on it, becomes the last one of the ring. -/
theorem advanceHead_eq {v : V} (h : RingInv rb ps (v :: q) rest)
    (hfull : (v :: q).length = rb.size) :
    ∃ rb' ps', rb.advanceHead rb.tail = some rb' ∧
      RingInv rb' ps' q (rest ++ [some v]) ∧ SameSettings rb rb' ∧
      rb'.freed = rb.freed := by
  obtain ⟨n, hn⟩ : ∃ n, ps.length = n + 2 := ⟨rb.size - 2, by
    have := h.length
    have := h.minSize
    omega⟩
  obtain ⟨x, ps', rfl⟩ : ∃ x ps', ps = x :: ps' :=
    List.exists_cons_of_length_pos (by omega)
  have hqn : q.length = n + 1 := by
    have := h.length
    rw [List.length_cons] at hfull
    omega
  have htail : (x :: ps')[n + 1]? = some rb.tail := by
    have := h.tail
    rwa [List.length_cons, List.getElem?_cons_succ, hqn] at this
  obtain ⟨r, hr, hrnone⟩ := h.reader
  have hnd := h.ringed.nodup
  rw [List.nodup_cons, List.nodup_cons] at hnd
  have hymem : rb.tail ∈ ps' := List.mem_of_getElem? (i := n) htail
  have hay : rb.head ≠ rb.tail := fun heq => hnd.1 (by simp [heq, hymem])
  have hra : rb.reader ≠ rb.head := fun heq => h.outside (by simp [heq])
  have hry : rb.reader ≠ rb.tail := fun heq => h.outside (by simp [heq, hymem])
  obtain ⟨ph, hph, hphn, hphp⟩ :=
    eq_some_of_pageLinks (h.ringed.links_first (by simp))
  obtain ⟨py, hpy, hpyn, hpyp⟩ :=
    eq_some_of_pageLinks (h.ringed.links_last (i := n + 1) (by omega) htail)
  let pages₁ := rb.pages.put rb.head { ph with next := flagOn ph.next }
  let pages₂ := pages₁.put rb.tail { py with next := linkTo rb.head }
  have h₁ : pages₁ rb.tail = some py := (Heap.put_of_ne hay.symm).trans hpy
  have hhead : pages₂ rb.head = some { ph with next := flagOn ph.next } :=
    (Heap.put_of_ne hay).trans (Heap.put_self hph)
  have hlast : pages₂ rb.tail = some { py with next := linkTo rb.head } := Heap.put_self h₁
  have hother : ∀ z, z ≠ rb.head → z ≠ rb.tail → pages₂ z = rb.pages z :=
    fun z hz₁ hz₂ => (Heap.put_of_ne hz₂).trans (Heap.put_of_ne hz₁)
  have hvalue : ∀ z, valueAt pages₂ z = valueAt rb.pages z := by
    intro z
    by_cases hz₁ : z = rb.head
    · rw [hz₁, valueAt, valueAt, hhead, hph]
      rfl
    by_cases hz₂ : z = rb.tail
    · rw [hz₂, valueAt, valueAt, hlast, hpy]
      rfl
    · rw [valueAt, valueAt, hother z hz₁ hz₂]
  refine ⟨{ rb with pages := pages₂, head := x }, ps' ++ [rb.head], ?_,
    ⟨?_, ?_, h.minSize, ?_, ?_, ⟨r, ?_, hrnone⟩, ?_, ?_, ?_, ?_⟩, ⟨rfl, rfl, rfl⟩, rfl⟩
  · have hcas₁ : casNext rb.pages rb.head ⟨ph.next.page, false⟩ (flagOn ph.next) =
        some (pages₁, true) := by
      simp [casNext, hph, hphn, pages₁]
    have hcas₂ : casNext pages₁ rb.tail (flagOn (linkTo rb.head)) (linkTo rb.head) =
        some (pages₂, true) := by
      simp [casNext, h₁, hpyn, flagOn, linkTo, pages₂]
    have hnext : ph.next.page = some x := by
      simp [hphn]
    simp only [advanceHead, hph, Option.bind_eq_bind, Option.bind_some]
    rw [hcas₁]
    simp only [Option.bind_some, if_true, hcas₂, hnext]
  · refine h.ringed.advance hn hnd.1 ?_ ?_ ?_ ?_
    · simp [pageLinks, hhead, hphn, hphp, flagOn, hn]
    · intro z hz
      cases hz
      have hxa : x ≠ rb.head := fun heq => hnd.1 (by simp [heq])
      have hxy : x ≠ rb.tail := fun heq => hnd.2.1 (heq ▸ hymem)
      rw [show pageLinks pages₂ x = pageLinks rb.pages x by
        simp only [pageLinks, hother x hxa hxy]]
      exact h.ringed.links_inner (i := 0) (by omega) rfl
    · intro z hz
      rw [htail] at hz
      cases hz
      simp [pageLinks, hlast, hpyp, linkTo]
    · intro i z hi hz
      have hzmem : z ∈ ps' := List.mem_of_getElem? (i := i) hz
      have hzy : z ≠ rb.tail := by
        intro heq
        rw [heq] at hz
        have := index_unique (List.nodup_cons.mpr hnd.2) hz htail
        omega
      have hza : z ≠ rb.head := fun heq => hnd.1 (by simp [← heq, hzmem])
      simp only [pageLinks, hother z hza hzy]
  · have hlen := h.length
    rw [List.length_append]
    exact hlen
  · have hfits := h.fits
    rw [List.length_cons] at hfits
    exact Nat.le_of_succ_le hfits
  · have hvals := List.cons.inj h.values
    have hcongr : valueAt pages₂ = valueAt rb.pages := funext hvalue
    rw [← List.cons_append, List.map_append]
    simp only [hcongr, List.map_singleton]
    rw [hvals.1, show (x :: ps').map (valueAt rb.pages) = q.map some ++ rest from hvals.2,
      List.append_assoc]
  · rw [← hr]
    exact hother _ hra hry
  · rw [← List.cons_append, List.mem_append, List.mem_singleton]
    rintro (hmem | heq)
    · exact h.outside (List.mem_cons_of_mem _ hmem)
    · exact hra heq
  · rw [← List.cons_append, hqn, List.getElem?_append_left
      (List.getElem?_eq_some_iff.mp htail).1]
    exact htail
  · intro hpos
    have hcommit : (x :: ps')[n]? = some rb.commit := by
      have hc := h.commit (by simp)
      simpa [hqn] using hc
    rw [hqn, Nat.add_sub_cancel, ← List.cons_append, List.getElem?_append_left
      (List.getElem?_eq_some_iff.mp hcommit).1]
    exact hcommit
  · have hempty : rb.isEmpty = false := h.isEmpty
    have hq : q.isEmpty = false := by
      rw [List.isEmpty_eq_false_iff, ← List.length_pos_iff]
      omega
    rw [hq]
    exact hempty

theorem position_unique (h : RingInv rb ps q rest) {i j : ℕ} {a : Addr}
    (hi : (rb.head :: ps)[i]? = some a) (hj : (rb.head :: ps)[j]? = some a) : i = j :=
  index_unique h.ringed.nodup hi hj

/-- With room left, a round claims the tail page. -/
theorem writeRound_room (h : RingInv rb ps q rest) (hroom : q.length < rb.size)
    (retries : ℕ) :
    ∃ next, (rb.head :: ps)[q.length + 1]? = some next ∧
      rb.writeRound retries = some ({ rb with tail := next }, .won rb.tail) := by
  have hlen : (rb.head :: ps).length = rb.size + 1 := by
    rw [List.length_cons, h.length]
  have hne : ¬ q.length + 1 = (rb.head :: ps).length := by omega
  obtain ⟨p, hp, hpn, -⟩ := eq_some_of_pageLinks (h.ringed.links _ _ h.tail)
  obtain ⟨next, hnext⟩ : ∃ next, (rb.head :: ps)[q.length + 1]? = some next :=
    ⟨_, List.getElem?_eq_getElem (by omega)⟩
  have hlink : p.next = linkTo next := by
    rw [hpn, ringNext, if_neg hne, decide_eq_false hne, hnext]
    rfl
  have hhead : next ≠ rb.head := by
    rintro rfl
    exact Nat.succ_ne_zero _ (h.position_unique hnext rfl)
  have hcommit : ¬ (rb.commit = rb.tail ∧ rb.tail ≠ rb.head) := by
    rintro ⟨hct, hth⟩
    rcases Nat.eq_zero_or_pos q.length with hzero | hpos
    · have htail := h.tail
      rw [hzero] at htail
      exact hth (Option.some.inj htail).symm
    · have hc := h.commit hpos
      rw [hct] at hc
      have := h.position_unique hc h.tail
      omega
  refine ⟨next, hnext, ?_⟩
  have hblock : ¬ (rb.mode = .blocking ∧ rb.commit = rb.tail ∧ rb.tail ≠ rb.head ∧
      next ≠ rb.head) := fun hb => hcommit ⟨hb.2.1, hb.2.2.1⟩
  have hopen : ¬ (p.next.head = true ∨ (next = rb.head ∧ ¬ rb.isEmpty = true)) := by
    simp [hlink, linkTo, hhead]
  have hpage : p.next.page = some next := by
    rw [hlink]
    rfl
  simp only [writeRound, hp, hpage, Option.bind_eq_bind, Option.bind_some, if_neg hblock,
    if_neg hopen]

theorem tail_link (h : RingInv rb ps q rest) (hfull : q.length = rb.size) :
    ∃ p, rb.pages rb.tail = some p ∧ p.next = flagOn (linkTo rb.head) := by
  have hlen : q.length + 1 = (rb.head :: ps).length := by
    rw [List.length_cons, h.length, hfull]
  obtain ⟨p, hp, hpn, -⟩ := eq_some_of_pageLinks (h.ringed.links _ _ h.tail)
  refine ⟨p, hp, ?_⟩
  rw [hpn, ringNext, if_pos hlen, decide_eq_true hlen]
  rfl

/-- In blocking mode a round on a full queue counts a retry, or gives up. -/
theorem writeRound_blocking (h : RingInv rb ps q rest) (hfull : q.length = rb.size)
    (hmode : rb.mode = .blocking) (retries : ℕ) :
    rb.writeRound retries = some (rb,
      if retries < writerCasMaxRetries then .again (retries + 1) else .ret (-2)) := by
  obtain ⟨p, hp, hpn⟩ := h.tail_link hfull
  by_cases hretries : retries < writerCasMaxRetries
  · simp [writeRound, hp, hpn, linkTo, flagOn, commitBefore, hmode, hretries]
  · simp [writeRound, hp, hpn, linkTo, flagOn, commitBefore, hmode, hretries]

/-- In overwrite mode a round on a full queue moves the head. -/
theorem writeRound_overwrite (h : RingInv rb ps q rest) (hfull : q.length = rb.size)
    (hmode : rb.mode = .overwrite) (retries : ℕ) :
    rb.writeRound retries =
      (rb.advanceHead rb.tail).map fun rb => (rb, .again retries) := by
  obtain ⟨p, hp, hpn⟩ := h.tail_link hfull
  have hpos : 0 < q.length := by
    have := h.minSize
    omega
  have hne : ¬ q.length - 1 + 1 = (rb.head :: ps).length := by
    rw [List.length_cons, h.length]
    omega
  obtain ⟨c, hc, hcn, -⟩ := eq_some_of_pageLinks (h.ringed.links _ _ (h.commit hpos))
  have hbefore : c.next = linkTo rb.tail := by
    rw [hcn, ringNext, if_neg hne, decide_eq_false hne, Nat.sub_add_cancel hpos, h.tail]
    rfl
  cases hadv : rb.advanceHead rb.tail with
  | none => simp [writeRound, hp, hpn, linkTo, flagOn, commitBefore, hmode, hc, hbefore, hadv]
  | some rb' =>
      simp [writeRound, hp, hpn, linkTo, flagOn, commitBefore, hmode, hc, hbefore, hadv]

/-- Every second count is made by the loop condition, so the loop ends inside a
round, with -2. -/
theorem writeLoop_blocking (h : RingInv rb ps q rest) (hfull : q.length = rb.size)
    (hmode : rb.mode = .blocking) (n : ℕ) :
    ∀ j, 2 * j ≤ writerCasMaxRetries →
      writeLoop (n + j + 1) (writerCasMaxRetries - 2 * j) rb = some (rb, .inl (-2)) := by
  intro j
  induction j with
  | zero =>
      intro _
      simp [writeLoop, h.writeRound_blocking hfull hmode]
  | succ j ih =>
      intro hj
      have hlt : writerCasMaxRetries - 2 * (j + 1) < writerCasMaxRetries := by omega
      have hlt' : writerCasMaxRetries - 2 * (j + 1) + 1 < writerCasMaxRetries := by omega
      have heq : writerCasMaxRetries - 2 * (j + 1) + 1 + 1 = writerCasMaxRetries - 2 * j := by
        omega
      rw [show n + (j + 1) + 1 = (n + j + 1) + 1 by omega, writeLoop,
        h.writeRound_blocking hfull hmode, if_pos hlt]
      simp only [Option.bind_eq_bind, Option.bind_some, if_pos hlt', heq]
      exact ih (by omega)

/-- Storing a value on the tail page; a value left there is let go. -/
theorem store_eq {r : Option V} (h : RingInv rb ps q (r :: rest)) {next : Addr}
    (hnext : (rb.head :: ps)[q.length + 1]? = some next) (v : V) :
    ∃ rb', rqueueUpdateValue { rb with tail := next } rb.tail v = some rb' ∧
      RingInv { rb' with
        writes := rb'.writes + 1
        isEmpty := false
        commit := rb.tail } ps (q ++ [v]) rest ∧
      SameSettings rb rb' ∧
      rb'.freed = rb.freed ++ if rb.freeValueCb then r.toList else [] := by
  obtain ⟨p, hp, -, -⟩ := eq_some_of_pageLinks (h.ringed.links _ _ h.tail)
  obtain ⟨pr, hpr, hprnone⟩ := h.reader
  have hlt : q.length + 1 < (rb.head :: ps).length :=
    (List.getElem?_eq_some_iff.mp hnext).1
  have hvalue : p.value = r := by
    have hget := congrArg (fun l => l[q.length]?) h.values
    simp only [List.getElem?_map, h.tail] at hget
    rw [List.getElem?_append_right (by simp), List.length_map, Nat.sub_self] at hget
    simpa [valueAt, hp] using hget
  have hlinks : ∀ z, pageLinks (rb.pages.put rb.tail { p with value := some v }) z =
      pageLinks rb.pages z := by
    intro z
    by_cases hz : z = rb.tail
    · simp [pageLinks, hz, Heap.put_apply, hp]
    · simp [pageLinks, Heap.put_apply, hz]
  have hrt : rb.reader ≠ rb.tail :=
    fun heq => h.outside (heq ▸ List.mem_of_getElem? h.tail)
  let rb' : RQueue V := { rb with
    pages := rb.pages.put rb.tail { p with value := some v }
    tail := next
    freed := rb.freed ++ if rb.freeValueCb then r.toList else [] }
  refine ⟨rb', ?_, ⟨h.ringed.congr fun z _ => hlinks z, h.length, h.minSize, ?_, ?_,
    ⟨pr, (Heap.put_of_ne hrt).trans hpr, hprnone⟩, h.outside, ?_, ?_, ?_⟩,
    ⟨rfl, rfl, rfl⟩, rfl⟩
  · by_cases hcb : rb.freeValueCb
    · simp [rqueueUpdateValue, hp, callFreeValueCb, hcb, hvalue, rb']
    · simp [rqueueUpdateValue, hp, callFreeValueCb, hcb, rb']
  · rw [List.length_cons, h.length] at hlt
    rw [List.length_append, List.length_singleton]
    exact Nat.le_of_lt_succ hlt
  · refine (map_valueAt_put h.ringed.nodup h.tail hp).trans ?_
    rw [h.values, List.set_append_right _ _ (by simp), List.length_map, Nat.sub_self]
    simp
  · rw [List.length_append]
    exact hnext
  · intro _
    rw [List.length_append, List.length_singleton, Nat.add_sub_cancel]
    exact h.tail
  · simp

/-- `rqueue_write` with room left: the value is appended. -/
theorem writeLoop_room (h : RingInv rb ps q rest) (hroom : q.length < rb.size)
    (n retries : ℕ) :
    ∃ next, (rb.head :: ps)[q.length + 1]? = some next ∧
      writeLoop (n + 1) retries rb = some ({ rb with tail := next }, .inr rb.tail) := by
  obtain ⟨next, hnext, hround⟩ := h.writeRound_room hroom retries
  exact ⟨next, hnext, by simp [writeLoop, hround]⟩

end RingInv

end RQueue
end LibHL
