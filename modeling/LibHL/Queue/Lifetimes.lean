import LibHL.Queue.Nodes
import LibHL.Queue.Refinement
import LibHL.Support.HeapCells

/-!
# The end of a queue

`queue_destroy` pops what is left, lets go of the two sentinels and has the reference counts
collect everything.  Then there is no entry and no node left, and every entry that was ever
made, the sentinels among them, has been terminated exactly once.
-/

namespace LibHL

/-- Releasing the live cells of a heap one after the other leaves none. -/
theorem Heap.free_all {α : Type*} (l : List Addr) : ∀ h : Heap α, l.Nodup →
    (∀ a, a ∈ l ↔ (h a).isSome) →
    ∃ h', l.foldlM (fun h a => h.free a) h = some h' ∧ ∀ a, h' a = none := by
  induction l with
  | nil =>
      intro h _ hlive
      refine ⟨h, rfl, fun a => Option.not_isSome_iff_eq_none.mp fun ha => ?_⟩
      exact List.not_mem_nil ((hlive a).mpr ha)
  | cons a l ih =>
      intro h hnodup hlive
      obtain ⟨hnew, hrest⟩ := List.nodup_cons.mp hnodup
      obtain ⟨v, hv⟩ := Option.isSome_iff_exists.mp ((hlive a).mp List.mem_cons_self)
      obtain ⟨h', hrun, hnone⟩ := ih (h.kill a) hrest fun b => by
        by_cases hb : b = a
        · subst hb
          simp [Heap.kill_apply, hnew]
        · rw [Heap.kill_apply, if_neg hb, ← hlive, List.mem_cons, or_iff_right hb]
      refine ⟨h', ?_, hnone⟩
      rw [List.foldlM_cons, Heap.free_eq_some hv]
      exact hrun

namespace Queue

open RefCnt View Prog

variable {V : Type} (bound : ℕ)

/-! ## The code -/

/-- `queue_clear` of a queue with a callback: the values that are passed to it. -/
def queueClear : ℕ → Prog (Queue V) (List V)
  | 0 => .stop
  | rounds + 1 => do
      match ← queuePopLeft bound with
      | none => pure []
      | some value => do
          let rest ← queueClear rounds
          pure (value :: rest)

/-- `queue_destroy` of a queue with a callback; there is no pool of entries. -/
def queueDestroy : Prog (Queue V) (List V) := do
  let freed ← queueClear bound bound
  let head ← readHead
  store bound (head, .next) none
  release bound (← readNode head)
  let tail ← readTail
  store bound (tail, .prev) none
  release bound (← readNode tail)
  refcntDestroy bound queueReusableEntry
  pure freed

variable {bound} {q : Queue V} {v : View V} {e t : Addr} {vals : List V}

/-! ## Clearing -/

/-- Popping from the left comes to an end, and gives the values in their order. -/
theorem queueClear_holds (hb : 2 ^ 9 + 2 ≤ bound) : ∀ (vals : List V) (rounds : ℕ) (q : Queue V),
    vals.length < rounds → Holds q .next vals →
    ∃ q', (queueClear bound rounds).run q = some (q', vals) ∧ Holds q' .next [] := by
  intro vals
  induction vals with
  | nil =>
      intro rounds q hlt h
      obtain ⟨k, rfl⟩ := Nat.exists_eq_succ_of_ne_zero (Nat.ne_of_gt hlt)
      obtain ⟨q', hrun, h'⟩ := pop_holds markPrev_marksRest hb h
      exact ⟨q', run_bind_of_run hrun, h'⟩
  | cons x vals ih =>
      intro rounds q hlt h
      obtain ⟨k, rfl⟩ := Nat.exists_eq_succ_of_ne_zero (Nat.ne_of_gt (Nat.zero_lt_of_lt hlt))
      obtain ⟨q₁, hrun₁, h₁⟩ := pop_holds markPrev_marksRest hb h
      obtain ⟨q₂, hrun₂, h₂⟩ := ih k q₁ (Nat.lt_of_succ_lt_succ hlt) h₁
      refine ⟨q₂, ?_, h₂⟩
      exact (run_bind_of_run hrun₁).trans ((run_bind_of_run hrun₂).trans rfl)

theorem queueClear_placed (rounds : ℕ) : Maintains Placed (queueClear (V := V) bound rounds) := by
  induction rounds with
  | zero => exact Ends.stop
  | succ rounds ih =>
      refine (pop_placed bound .next markPrev_gentle).bind fun found => ?_
      cases found with
      | none => exact Maintains.pure []
      | some value => exact ih.bind fun rest => Maintains.pure (value :: rest)

/-! ## Letting go of the sentinels -/

theorem readHead_does : Does readHead v v.head v := readEnd_does .next

theorem readTail_does : Does readTail v v.tail v := readEnd_does .prev

/-- A link goes that was the last reference to an entry without links. -/
theorem clear_last_does {d : Dir} (hb : 2 ^ 9 + 2 ≤ bound) (he : e ∈ v.live) (ht : t ∈ v.live)
    (hl : (v.link (e, d)).target = some t) (hc : v.count t = 1)
    (hlt : ∀ d', (v.setLink (e, d) noLink).link (t, d') = noLink) :
    Does (store bound (e, d) none) v () ((v.setLink (e, d) noLink).drop t) := by
  have hex : Does (exchangeLink (e, d) ⟨none, false⟩ bound) v (v.ref (v.link (e, d)))
      (v.setLink (e, d) noLink) := by
    intro q hq
    exact ⟨_, exchangeLink_run _ (Nat.lt_of_lt_of_le (by decide) hb) (hq.link e he d),
      ⟨hq.setLink he d noLink (by rintro t' ⟨⟩), hq.free_le⟩⟩
  have hnode : (v.ref (v.link (e, d))).node = some (v.node t) := by simp [View.ref, hl]
  have hne : v.ref (v.link (e, d)) ≠ null := by
    intro heq
    rw [heq] at hnode
    cases hnode
  refine hex.bind ?_
  simp only [if_neg hne, releaseOld, hnode]
  exact release_last_does (v := v.setLink (e, d) noLink) hb ht hc hlt

/-- The view of an empty queue after both sentinels were let go. -/
theorem letGo_does (hb : 2 ^ 9 + 2 ≤ bound) (hr : Rests v .next [] []) :
    ∃ v', v'.live = ∅ ∧ Does (do
      let head ← readHead
      store bound (head, .next) none
      release bound (← readNode head)
      let tail ← readTail
      store bound (tail, .prev) none
      release bound (← readNode tail)) v () v' := by
  have hpos : 0 < bound := Nat.lt_of_lt_of_le (by decide) hb
  have hne : v.head ≠ v.tail := by
    have hnodup : (v.head :: ([] ++ [v.tail])).Nodup := hr.nodup
    simpa using hnodup
  have hh : v.head ∈ v.live := (hr.live _).mpr List.mem_cons_self
  have ht : v.tail ∈ v.live := (hr.live _).mpr (List.mem_cons_of_mem _ List.mem_cons_self)
  have hlinked : Linked v.link .next v.head v.tail := by
    have hchain : (v.head :: ([] ++ [v.tail])).IsChain (Linked v.link .next) := hr.chained
    simpa using hchain
  have hnext : v.link (v.head, .next) = linkTo v.tail := hlinked.1
  have hprev : v.link (v.tail, .prev) = linkTo v.head := hlinked.2
  have hleft : v.link (v.head, .prev) = noLink := hr.outer .next
  have hright : v.link (v.tail, .next) = noLink := hr.outer .prev
  have hch : v.count v.head = 2 := hr.count_sentinel .next
  have hct : v.count v.tail = 2 := hr.count_sentinel .prev
  have hlive : v.live = {v.head, v.tail} := by
    ext e
    rw [hr.live e]
    show e ∈ [v.head, v.tail] ↔ _
    simp
  refine ⟨_, ?_, readHead_does.bind <|
    (clear_does hpos (by exact hh) (by exact ht) (by exact congrArg Link.target hnext)
      (by rw [hct]; decide)).bind <| (readNode_does (by exact hh)).bind <|
    (release_does (by exact hh) ?_).bind <| readTail_does.bind <|
    (clear_last_does hb (by exact ht) (by exact hh) ?_ ?_ ?_).bind <|
    (readNode_does (by exact ⟨ht, hne.symm⟩)).bind <|
    release_last_does hb (by exact ⟨ht, hne.symm⟩) ?_ ?_⟩
  · show (v.live \ {v.head}) \ {v.tail} = ∅
    rw [hlive]
    ext e
    simp
  · simp [hne, hch]
  · simp [hprev, linkTo]
  · simp [hne, hch]
  · intro d
    cases d <;> simp [hne, hleft]
  · simp [View.drop, hne.symm, hct]
  · intro d
    cases d <;> simp [View.drop, hne.symm, hright]

theorem letGo_placed : Maintains (Placed (V := V)) (do
    let head ← readHead
    store bound (head, .next) none
    release bound (← readNode head)
    let tail ← readTail
    store bound (tail, .prev) none
    release bound (← readNode tail)) := by
  refine (placed_of_gentle (readEnd_gentle .next)).bind fun head => ?_
  refine (store_placed bound _ _).bind fun _ => releaseEntry_then bound _ fun _ => ?_
  refine (placed_of_gentle (readEnd_gentle .prev)).bind fun tail => ?_
  exact (store_placed bound _ _).bind fun _ => releaseEntry_placed bound tail

/-! ## Collecting everything -/

/-- If no entry is in use, then `refcnt_destroy` frees every entry and every node. -/
theorem refcntDestroy_frees (hb : 2 ^ 10 < bound) (hq : Shows q v) (hp : NodesKept none q)
    (hlive : v.live = ∅) :
    ∃ q', (refcntDestroy bound queueReusableEntry).run q = some (q', ()) ∧
      (∀ e, q'.ext.entries e = none) ∧ (∀ n, q'.nodes n = none) ∧ q'.terminated = v.terminated ∧
      ∀ e, e ∈ v.terminated ↔ e < q'.ext.entries.brk := by
  obtain ⟨k, rfl⟩ := Nat.exists_eq_succ_of_ne_zero (Nat.ne_of_gt (Nat.zero_lt_of_lt hb))
  obtain ⟨q₁, hrun, h, hle⟩ := gcLoop_keeps queueReusableEntry (I := fun q => Sees q v) 0
    (fun _ _ _ hq hfree => collect_run hq hfree) k q hq.toSees (by have := hq.free_le; omega)
  have hfree : q₁.freeList = [] := List.length_eq_zero_iff.mp (Nat.le_zero.mp hle)
  have hkept := (gcLoop_ends 0 (k + 1) q q₁ () hp hrun).1
  have hterm : ∀ e, e ∈ v.terminated ↔ e < q₁.ext.entries.brk := by
    intro e
    rw [h.mem_terminated, hlive]
    exact and_iff_left (Set.notMem_empty e)
  have hpool : ∀ n, n ∈ q₁.nodePool ↔ (q₁.nodes n).isSome := by
    refine fun n => ⟨h.pool n, fun hn => ?_⟩
    obtain ⟨nd, hnd⟩ := Option.isSome_iff_exists.mp hn
    have hdead : nd.ptr ∈ q₁.terminated := by
      rw [h.terminated]
      exact (hterm _).mpr (hkept.ptr_lt n nd hnd)
    rcases hkept.kept n nd hnd hdead with hlist | hin | hout
    · rw [hfree] at hlist
      cases hlist
    · exact hin
    · cases hout
  obtain ⟨nodes, hall, hnone⟩ := Heap.free_all q₁.nodePool q₁.nodes h.pool_nodup hpool
  have hqueues : destroyQueues.run q₁ =
      some ({ q₁ with nodes := nodes, freeList := [], nodePool := [] }, ()) := by
    rw [destroyQueues, run_atomic, hall]
    rfl
  refine ⟨_, (run_bind_of_run hrun).trans hqueues, fun e => ?_, hnone, h.terminated, hterm⟩
  by_contra hne
  obtain ⟨ent, hent⟩ := Option.ne_none_iff_exists'.mp hne
  rcases h.rest e ent hent with he | hlist
  · rw [hlive] at he
    exact he
  · rw [hfree] at hlist
    cases hlist

/-- Destroying a queue passes the values that are in it to the callback, in their order, and
leaves neither an entry nor a node. -/
theorem queueDestroy_run (hb : 2 ^ 10 < bound) (hlen : vals.length < bound)
    (h : Holds q .next vals) (hp : Placed q) :
    ∃ q', (queueDestroy bound).run q = some (q', vals) ∧ (∀ e, q'.ext.entries e = none) ∧
      (∀ n, q'.nodes n = none) ∧ q'.terminated.Nodup ∧
      ∀ e, e ∈ q'.terminated ↔ e < q'.ext.entries.brk := by
  have hb' : 2 ^ 9 + 2 ≤ bound := by omega
  obtain ⟨q₁, hrun₁, v₁, es, hq₁, hr₁⟩ := queueClear_holds hb' vals bound q hlen h
  have hp₁ := queueClear_placed bound q q₁ vals hp hrun₁
  have hes : es = [] := List.map_eq_nil_iff.mp (hr₁.value.trans List.map_nil)
  subst hes
  obtain ⟨v₂, hlive, hdoes⟩ := letGo_does hb' hr₁
  obtain ⟨q₂, hrun₂, hq₂⟩ := hdoes q₁ hq₁
  have hp₂ := letGo_placed q₁ q₂ () hp₁ hrun₂
  obtain ⟨q₃, hrun₃, hentries, hnodes, hterm, hmem⟩ := refcntDestroy_frees hb hq₂ hp₂.1 hlive
  refine ⟨q₃, ?_, hentries, hnodes, ?_, ?_⟩
  · have hrest := (run_bind_of_run hrun₂ (k := fun _ => do
      refcntDestroy bound queueReusableEntry
      pure vals)).trans ((run_bind_of_run hrun₃).trans rfl)
    simp only [bind_assoc] at hrest
    exact (run_bind_of_run hrun₁).trans hrest
  · rw [hterm]
    exact hq₂.terminated_nodup
  · rw [hterm]
    exact hmem

/-! ## Runs -/

theorem step_placed (q q' : Queue V) (op : Op V) (o : Out V) (h : Placed q)
    (hs : step bound q op = some (q', o)) : Placed q' := by
  have hkeeps : ∀ {α : Type} {p : Prog (Queue V) α} {f : α → Out V}, Maintains Placed p →
      (p.run q).map (fun r => (r.1, f r.2)) = some (q', o) → Placed q' := by
    intro α p f hp hrun
    obtain ⟨r, hr, heq⟩ := Option.map_eq_some_iff.mp hrun
    cases heq
    exact hp q r.1 r.2 h hr
  cases op with
  | pushLeft x => exact hkeeps (f := fun _ => .pushed) (push_placed bound .next x) hs
  | pushRight x => exact hkeeps (f := fun _ => .pushed) (push_placed bound .prev x) hs
  | popLeft => exact hkeeps (pop_placed bound .next markPrev_gentle) hs
  | popRight => exact hkeeps (pop_placed bound .prev markNext_gentle) hs
  | count =>
      cases hs
      exact h

theorem placed_blank : Placed (blank : Queue V) := by
  refine ⟨⟨rfl, ?_, ?_, ?_, ?_⟩, Nat.zero_le _⟩
  · rintro n nd ⟨⟩
  · rintro n n' nd nd' ⟨⟩
  · rintro e ⟨⟩
  · rintro n nd ⟨⟩

theorem length_refRun_le (ops : List (Op V)) : ∀ vals : List V,
    (refRun dequeStep vals ops).1.length ≤ vals.length + ops.length := by
  induction ops with
  | nil => exact fun vals => Nat.le_refl _
  | cons op ops ih =>
      intro vals
      have hstep : (dequeStep vals op).1.length ≤ vals.length + 1 := by
        cases op <;> simp [dequeStep] <;> omega
      calc (refRun dequeStep (dequeStep vals op).1 ops).1.length
          ≤ (dequeStep vals op).1.length + ops.length := ih _
        _ ≤ vals.length + (op :: ops).length := by
          rw [List.length_cons]
          omega

/-- After every run of pushes and pops on a new queue, `queue_destroy` passes the values that
a double-ended queue would hold to the callback, from left to right.  It leaves no entry and
no node, and every entry that was ever made has been terminated exactly once.  The loops need
as many rounds as there are entries on the free list or values in the queue. -/
theorem queue_leaves_nothing (ops : List (Op V)) (hb : 2 ^ 10 < bound)
    (hlen : ops.length < bound) :
    ∃ q₀ q q', (queueInit bound).run blank = some (q₀, ()) ∧
      runSteps (step bound) q₀ ops = some (q, (refRun dequeStep [] ops).2) ∧
      (queueDestroy bound).run q = some (q', (refRun dequeStep [] ops).1) ∧
      (∀ e, q'.ext.entries e = none) ∧ (∀ n, q'.nodes n = none) ∧ q'.terminated.Nodup ∧
      ∀ e, e ∈ q'.terminated ↔ e < q'.ext.entries.brk := by
  have hb' : 2 ^ 9 + 2 ≤ bound := by omega
  obtain ⟨q₀, v₀, hinit, hq₀, hr₀⟩ := queueInit_run (V := V) (Nat.zero_lt_of_lt hb)
  obtain ⟨q, hrun, h⟩ := runSteps_refines
    (fun q vals op h _ => step_refines hb' q vals op h) ops q₀ [] ⟨v₀, [], hq₀, hr₀⟩
    (stepsMeet_of_forall (fun _ _ => trivial) ops q₀)
  have hp : Placed q := invariant_of_runSteps
    (fun q op q' o h (_ : True) hs => step_placed q q' op o h hs) ops q₀ q _
    (queueInit_placed bound blank q₀ () placed_blank hinit)
    (stepsMeet_of_forall (fun _ _ => trivial) ops q₀) hrun
  have hshort : (refRun dequeStep [] ops).1.length < bound :=
    lt_of_le_of_lt ((length_refRun_le ops []).trans (Nat.zero_add _).le) hlen
  obtain ⟨q', hdestroy, hrest⟩ := queueDestroy_run hb hshort h hp
  exact ⟨q₀, q, q', hinit, hrun, hdestroy, hrest⟩

/-- Two values are left in the queue. -/
theorem queue_leaves_nothing_two :
    ∃ q₀ q q', (queueInit 1025).run blank = some (q₀, ()) ∧
      runSteps (step 1025) q₀ [.pushLeft 1, .pushRight 2, .pushLeft 3, .popRight] =
        some (q, [.pushed, .pushed, .pushed, .popped (some 2)]) ∧
      (queueDestroy 1025).run q = some (q', [3, 1]) ∧
      (∀ e, q'.ext.entries e = none) ∧ (∀ n, q'.nodes n = none) ∧ q'.terminated.Nodup ∧
      ∀ e, e ∈ q'.terminated ↔ e < q'.ext.entries.brk :=
  queue_leaves_nothing [.pushLeft 1, .pushRight 2, .pushLeft 3, .popRight] (by decide) (by decide)

end Queue
end LibHL
