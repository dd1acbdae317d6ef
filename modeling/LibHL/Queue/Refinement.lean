import LibHL.Queue.Deque

/-!
# The queue as a double-ended queue

Runs of a single thread.  The reference is a list of values.  Between operations the
reference counts are those of a queue at rest, and every entry that is no longer
linked has been terminated exactly once.
-/

namespace LibHL
namespace Queue

open RefCnt View

variable {V : Type}

/-- The operations of a single thread. -/
inductive Op (V : Type) where
  | pushLeft (value : V)
  | pushRight (value : V)
  | popLeft
  | popRight
  | count
deriving DecidableEq, Repr

/-- What the operations return. -/
inductive Out (V : Type) where
  | pushed
  | popped (value : Option V)
  | count (n : ℕ)
deriving DecidableEq, Repr

/-- One operation of the queue. -/
def step (bound : ℕ) (q : Queue V) : Op V → Option (Queue V × Out V)
  | .pushLeft x => ((queuePushLeft bound x).run q).map fun r => (r.1, .pushed)
  | .pushRight x => ((queuePushRight bound x).run q).map fun r => (r.1, .pushed)
  | .popLeft => ((queuePopLeft bound).run q).map fun r => (r.1, .popped r.2)
  | .popRight => ((queuePopRight bound).run q).map fun r => (r.1, .popped r.2)
  | .count => some (q, .count (queueCount q))

/-- One operation of a double-ended queue. -/
def dequeStep (vals : List V) : Op V → List V × Out V
  | .pushLeft x => (x :: vals, .pushed)
  | .pushRight x => (vals ++ [x], .pushed)
  | .popLeft => (vals.tail, .popped vals.head?)
  | .popRight => (vals.dropLast, .popped vals.getLast?)
  | .count => (vals, .count vals.length)

/-- The reference count of the node of an entry. -/
def refcount (q : Queue V) (e : Addr) : Option UInt32 :=
  (q.ext.entries e).bind fun ent => (q.nodes ent.node).map RefcntNode.count

/-- The queue between operations, with the entries `es` that hold `vals`. -/
structure AtRest (q : Queue V) (es : List Addr) (vals : List V) : Prop where
  nodup : (q.ext.head :: (es ++ [q.ext.tail])).Nodup
  chained : (q.ext.head :: (es ++ [q.ext.tail])).IsChain fun a b => ∃ x y,
    q.ext.entries a = some x ∧ q.ext.entries b = some y ∧
    q.links (a, .next) = some (refTo y.node) ∧ q.links (b, .prev) = some (refTo x.node)
  value : es.map (fun e => (q.ext.entries e).bind QueueEntry.value) = vals.map some
  count_entry : ∀ e ∈ es, refcount q e = some 3
  count_head : refcount q q.ext.head = some 2
  count_tail : refcount q q.ext.tail = some 2
  unmarked : ∀ a r, q.links a = some r → r.mark = false
  terminated : ∀ e, e < q.ext.entries.brk →
    q.terminated.count e = if e ∈ q.ext.head :: (es ++ [q.ext.tail]) then 0 else 1

theorem atRest_of_shows {q : Queue V} {v : View V} {es : List Addr} {vals : List V}
    (hq : Shows q v) (hr : Rests v .next es vals) : AtRest q es vals := by
  have hhead : v.sentinel .next = q.ext.head := hq.head.symm
  have htail : v.sentinel (back .next) = q.ext.tail := hq.tail.symm
  have hlive := hr.live
  have hnodup := hr.nodup
  have hchain := hr.chained
  rw [hhead, htail] at hlive hnodup hchain
  have hcount : ∀ e ∈ v.live, refcount q e = some (v.count e) := by
    intro e he
    simp [refcount, hq.entry e he, hq.node e he]
  refine {
    nodup := hnodup, chained := ?_, value := ?_, count_entry := ?_, count_head := ?_,
    count_tail := ?_, unmarked := ?_, terminated := ?_ }
  · refine hchain.imp_of_mem_imp fun a b ha hb hab => ?_
    have ha' := (hlive a).mpr ha
    have hb' := (hlive b).mpr hb
    refine ⟨_, _, hq.entry a ha', hq.entry b hb', ?_, ?_⟩
    · rw [hq.link a ha', hab.1]
      rfl
    · rw [hq.link b hb', show v.link (b, .prev) = linkTo a from hab.2]
      rfl
  · rw [← hr.value]
    refine List.map_congr_left fun e he => ?_
    rw [hq.entry e ((hlive e).mpr (by simp [he]))]
    rfl
  · intro e he
    rw [hcount e ((hlive e).mpr (by simp [he])), hr.count_entry e he]
  · rw [hcount _ ((hlive _).mpr (by simp)), ← hhead, hr.count_sentinel]
  · rw [hcount _ ((hlive _).mpr (by simp)), ← htail, hr.count_sentinel]
  · rintro ⟨e, d⟩ r hlk
    cases hent : q.ext.entries e with
    | none =>
        rw [hq.absent e d hent] at hlk
        cases hlk
    | some ent =>
        rcases hq.rest e ent hent with he | hfree
        · rw [hq.link e he d] at hlk
          cases hlk
          exact hr.unmarked he d
        · obtain ⟨nd, hnd⟩ := hq.retired _ hfree
          obtain ⟨nd', hnd', rfl⟩ := hq.owner e ent hent
          cases hnd.node.symm.trans hnd'
          cases (hnd.links d).symm.trans hlk
          rfl
  · intro e he
    rw [hq.terminated]
    split
    · rename_i hmem
      refine List.count_eq_zero.mpr fun hterm => ?_
      exact ((hq.mem_terminated e).mp hterm).2 ((hlive e).mpr hmem)
    · rename_i hmem
      refine List.count_eq_one_of_mem hq.terminated_nodup ?_
      exact (hq.mem_terminated e).mpr ⟨he, fun hl => hmem ((hlive e).mp hl)⟩

/-! ## A new queue -/

/-- What there is to see of a queue before it is initialized. -/
def View.empty : View V where
  live := ∅
  node := fun _ => 0
  value := fun _ => none
  count := fun _ => 0
  link := fun _ => noLink
  head := 0
  tail := 0
  length := 0
  terminated := []

theorem shows_blank : Shows (blank : Queue V) View.empty where
  entry := by rintro e ⟨⟩
  node := by rintro e ⟨⟩
  link := by rintro e ⟨⟩
  target := by rintro e ⟨⟩
  head := rfl
  tail := rfl
  length := rfl
  terminated := rfl
  terminated_nodup := List.nodup_nil
  mem_terminated := by
    intro e
    refine ⟨fun h => absurd h List.not_mem_nil, fun h => absurd h.1 (Nat.not_lt_zero e)⟩
  threshold := rfl
  retired := by rintro n ⟨⟩
  free_nodup := List.nodup_nil
  pool := by rintro n ⟨⟩
  pool_unused := by rintro e ent ⟨⟩
  pool_nodup := List.nodup_nil
  owner := by rintro e ent ⟨⟩
  rest := by rintro e ent ⟨⟩
  absent := fun _ _ _ => rfl
  free_le := Nat.zero_le _

theorem queueInit_run {bound : ℕ} (hb : 0 < bound) :
    ∃ (q : Queue V) (v : View V), (queueInit bound).run blank = some (q, ()) ∧ Shows q v ∧
      Rests v .next [] [] := by
  obtain ⟨q₁, h, m₁, hrun₁, hnew₁, -, hq₁⟩ := allocEntry_does (none : Option V) blank shows_blank
  obtain ⟨q₂, t, m₂, hrun₂, hnew₂, -, hq₂⟩ := allocEntry_does (none : Option V) q₁ hq₁
  have hth : t ≠ h := fun heq => hnew₂ (heq ▸ Or.inl rfl)
  set v := (View.empty.create h m₁ (none : Option V)).create t m₂ none with hv
  have hends : Does (Prog.atomic fun q => some ({ q with
      ext := { q.ext with head := h, tail := t } }, ())) v () { v with head := h, tail := t } := by
    intro q hq
    have hext := hq.setExt { q.ext with head := h, tail := t } rfl rfl rfl hq.length
    exact ⟨_, Prog.run_atomic _ _, ⟨hext, hq.free_le⟩⟩
  have hh : h ∈ v.live := Or.inr (Or.inl rfl)
  have ht : t ∈ v.live := Or.inl rfl
  have hlink : ∀ e d, v.link (e, d) = noLink := by
    intro e d
    cases d <;> simp [hv, create, View.empty]
  have hlinked : Does (do
      Prog.atomic fun q => some ({ q with ext := { q.ext with head := h, tail := t } }, ())
      store bound (h, .next) (some (← readNode t))
      store bound (t, .prev) (some (← readNode h))) v ()
      ((((({ v with head := h, tail := t } : View V).setLink (h, .next) (linkTo t)).retain
        t).setLink (t, .prev) (linkTo h)).retain h) := by
    refine hends.bind ?_
    refine (readNode_does (by exact ht)).bind ?_
    refine (store_does hb (by exact hh) (by exact ht) (by exact hlink _ _)).bind ?_
    refine (readNode_does (by exact hh)).bind ?_
    exact store_does hb (by exact ht) (by exact hh) (by simp [hth, hlink])
  obtain ⟨q₃, hrun₃, hq₃⟩ := hlinked q₂ hq₂
  refine ⟨q₃, _, ?_, hq₃, ?_⟩
  · exact (Prog.run_bind_of_run hrun₁).trans ((Prog.run_bind_of_run hrun₂).trans hrun₃)
  refine {
    nodup := ?_, live := ?_, chained := ?_, outer := ?_, count_sentinel := ?_,
    count_entry := by rintro e ⟨⟩, value := rfl, length := rfl }
  · simp [sentinel, back, Ne.symm hth]
  · intro e
    simp [sentinel, back, hv, create, View.empty, or_comm]
  · simp [sentinel, back, Linked, Ne.symm hth]
  · intro d
    cases d <;> simp [sentinel, back, hlink, hth, Ne.symm hth]
  · intro d
    cases d <;> simp [sentinel, hv, create, hth, Ne.symm hth]

/-! ## Runs -/

/-- The queue holds the values, seen from the end that `d` leads away from. -/
def Holds (q : Queue V) (d : Dir) (vals : List V) : Prop :=
  ∃ v es, Shows q v ∧ Rests v d es vals

theorem Holds.reverse {q : Queue V} {d : Dir} {vals : List V} (h : Holds q d vals) :
    Holds q (back d) vals.reverse := by
  obtain ⟨v, es, hq, hr⟩ := h
  exact ⟨v, es.reverse, hq, hr.reverse⟩

theorem push_holds {bound : ℕ} {q : Queue V} {d : Dir} {vals : List V} (hb : 0 < bound)
    (h : Holds q d vals) (x : V) :
    ∃ q', (push bound d x).run q = some (q', ()) ∧ Holds q' d (x :: vals) := by
  obtain ⟨v, es, hq, hr⟩ := h
  obtain ⟨q', e, v', hrun, hq', hr'⟩ := push_run hb hq hr x
  exact ⟨q', hrun, v', e :: es, hq', hr'⟩

theorem pop_holds {bound : ℕ} {q : Queue V} {d : Dir} {vals : List V}
    {markRest : Addr → ℕ → Prog (Queue V) Unit} (hmark : MarksRest d markRest)
    (hb : 2 ^ 9 + 2 ≤ bound) (h : Holds q d vals) :
    ∃ q', (pop bound d markRest).run q = some (q', vals.head?) ∧ Holds q' d vals.tail := by
  have hpos : 0 < bound := by omega
  obtain ⟨v, es, hq, hr⟩ := h
  have hlen : es.length = vals.length := by
    have hmap := congrArg List.length hr.value
    rwa [List.length_map, List.length_map] at hmap
  cases vals with
  | nil =>
      cases List.length_eq_zero_iff.mp hlen
      obtain ⟨q', hrun, hq'⟩ := pop_empty_does hpos hr q hq
      exact ⟨q', hrun, v, [], hq', hr⟩
  | cons x vals =>
      cases es with
      | nil => cases hlen
      | cons e es =>
          obtain ⟨v', hdoes, hr'⟩ := pop_does hmark hb hr
          obtain ⟨q', hrun, hq'⟩ := hdoes q hq
          exact ⟨q', hrun, v', es, hq', hr'⟩

/-- One operation of the queue is one of a double-ended queue. -/
theorem step_refines {bound : ℕ} (hb : 2 ^ 9 + 2 ≤ bound) (q : Queue V) (vals : List V)
    (op : Op V) (h : Holds q .next vals) :
    ∃ q', step bound q op = some (q', (dequeStep vals op).2) ∧
      Holds q' .next (dequeStep vals op).1 := by
  have hpos : 0 < bound := by omega
  have hright : Holds q .prev vals.reverse := h.reverse
  cases op with
  | pushLeft x =>
      obtain ⟨q', hrun, hq'⟩ := push_holds hpos h x
      exact ⟨q', by simp [step, queuePushLeft, hrun, dequeStep], hq'⟩
  | pushRight x =>
      obtain ⟨q', hrun, hq'⟩ := push_holds hpos hright x
      refine ⟨q', by simp [step, queuePushRight, hrun, dequeStep], ?_⟩
      have hrev := hq'.reverse
      rwa [List.reverse_cons, List.reverse_reverse] at hrev
  | popLeft =>
      obtain ⟨q', hrun, hq'⟩ := pop_holds markPrev_marksRest hb h
      exact ⟨q', by simp [step, queuePopLeft, hrun, dequeStep], hq'⟩
  | popRight =>
      obtain ⟨q', hrun, hq'⟩ := pop_holds markNext_marksRest hb hright
      refine ⟨q', by simp [step, queuePopRight, hrun, dequeStep], ?_⟩
      have hrev := hq'.reverse
      rwa [List.tail_reverse, List.reverse_reverse] at hrev
  | count =>
      refine ⟨q, ?_, h⟩
      obtain ⟨v, es, hq, hr⟩ := h
      have hmap := congrArg List.length hr.value
      rw [List.length_map, List.length_map] at hmap
      simp [step, queueCount, hq.length, hr.length, hmap, dequeStep]

/-- Every run of pushes and pops of a single thread on a new queue returns what a
double-ended queue returns, and ends with a queue at rest.  A collection takes at most
`2 ^ 9 + 2` rounds, which is how long the loops have to run. -/
theorem queue_refines_deque (bound : ℕ) (hb : 2 ^ 9 + 2 ≤ bound) (ops : List (Op V)) :
    ∃ q₀ q es, (queueInit bound).run blank = some (q₀, ()) ∧
      runSteps (step bound) q₀ ops = some (q, (refRun dequeStep [] ops).2) ∧
      AtRest q es (refRun dequeStep [] ops).1 ∧
      queueCount q = (refRun dequeStep [] ops).1.length := by
  have hpos : 0 < bound := by omega
  obtain ⟨q₀, v₀, hinit, hq₀, hr₀⟩ := queueInit_run (V := V) hpos
  obtain ⟨q, hrun, v, es, hq, hr⟩ := runSteps_refines
    (fun q vals op h _ => step_refines hb q vals op h) ops q₀ [] ⟨v₀, [], hq₀, hr₀⟩
    (stepsMeet_of_forall (fun _ _ => trivial) ops q₀)
  have hmap := congrArg List.length hr.value
  rw [List.length_map, List.length_map] at hmap
  refine ⟨q₀, q, es, hinit, hrun, atRest_of_shows hq hr, ?_⟩
  rw [queueCount, hq.length, hr.length, hmap]

/-- A run that empties the queue from both ends. -/
theorem queue_refines_deque_bothEnds :
    2 ^ 9 + 2 ≤ 600 ∧ ∃ q₀ q es, (queueInit 600).run blank = some (q₀, ()) ∧
      runSteps (step 600) q₀ [.pushLeft 1, .pushRight 2, .popRight, .popLeft, .count] =
        some (q, [.pushed, .pushed, .popped (some 2), .popped (some 1), .count 0]) ∧
      AtRest q es [] ∧ queueCount q = 0 :=
  ⟨by decide, queue_refines_deque 600 (by decide)
    [.pushLeft 1, .pushRight 2, .popRight, .popLeft, .count]⟩

end Queue
end LibHL
