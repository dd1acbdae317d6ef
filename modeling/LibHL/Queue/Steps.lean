import LibHL.Queue.View
import LibHL.RefCnt.Operations

/-!
# The steps of a single thread

What each primitive of the queue does to a view.  `Does` is closed under sequencing,
so that an operation is followed by naming the steps it takes.
-/

namespace LibHL
namespace Queue

open RefCnt View

variable {V α β : Type}

/-- A view of the queue, with a free list that is not due for a collection. -/
structure Shows (q : Queue V) (v : View V) : Prop extends Sees q v where
  free_le : q.freeList.length ≤ 2 ^ 10

/-- On every queue with the first view, the program ends with the result and the
second view. -/
def Does (p : Prog (Queue V) α) (v : View V) (a : α) (v' : View V) : Prop :=
  ∀ q, Shows q v → ∃ q', p.run q = some (q', a) ∧ Shows q' v'

theorem Does.pure (v : View V) (a : α) : Does (Pure.pure a) v a v :=
  fun q hq => ⟨q, rfl, hq⟩

theorem Does.bind {p : Prog (Queue V) α} {k : α → Prog (Queue V) β} {v v₁ v₂ : View V}
    {a : α} {b : β} (hp : Does p v a v₁) (hk : Does (k a) v₁ b v₂) :
    Does (p >>= k) v b v₂ := by
  intro q hq
  obtain ⟨q₁, hrun₁, hq₁⟩ := hp q hq
  obtain ⟨q₂, hrun₂, hq₂⟩ := hk q₁ hq₁
  exact ⟨q₂, (Prog.run_bind_of_run hrun₁).trans hrun₂, hq₂⟩

theorem Does.of_eq {p : Prog (Queue V) α} {v v₁ v₂ : View V} {a : α} (h : Does p v a v₁)
    (heq : v₁ = v₂) : Does p v a v₂ :=
  heq ▸ h

variable {v : View V} {e : Addr}

/-! ## Reading -/

theorem readNode_does (he : e ∈ v.live) : Does (readNode e) v (v.node e) v := by
  intro q hq
  refine ⟨q, ?_, hq⟩
  simp [readNode, hq.entry e he]

theorem readValue_does (he : e ∈ v.live) : Does (readValue e) v (v.value e) v := by
  intro q hq
  refine ⟨q, ?_, hq⟩
  simp [readValue, hq.entry e he]

theorem readLink_does (he : e ∈ v.live) (d : Dir) :
    Does (readLink (e, d)) v (v.ref (v.link (e, d))) v := by
  intro q hq
  refine ⟨q, ?_, hq⟩
  simp [hq.link e he d]

/-- The sentinel at the end that `away` leads away from. -/
def View.sentinel (v : View V) : Dir → Addr
  | .next => v.head
  | .prev => v.tail

theorem readEnd_does (d : Dir) : Does (readEnd d) v (v.sentinel d) v := by
  intro q hq
  refine ⟨q, ?_, hq⟩
  cases d with
  | prev => simp [readEnd, readTail, hq.tail, View.sentinel]
  | next => simp [readEnd, readHead, hq.head, View.sentinel]

theorem getNodePtr_does (he : e ∈ v.live) :
    Does (getNodePtr (some (v.node e))) v (some e) v := by
  intro q hq
  refine ⟨q, ?_, hq⟩
  simp [getNodePtr, Prog.run_bind, hq.node e he]

/-! ## Links -/

theorem casLink_does {d : Dir} {old new : Ref} (l : Link) (he : e ∈ v.live)
    (ht : ∀ t, l.target = some t → t ∈ v.live) (hold : old = v.ref (v.link (e, d)))
    (hnew : new = v.ref l) :
    Does (casLink (e, d) old new) v true (v.setLink (e, d) l) := by
  intro q hq
  subst hold hnew
  exact ⟨_, casLink_run (hq.link e he d), ⟨hq.setLink he d l ht, hq.free_le⟩⟩

theorem claim_does {d : Dir} {t : Addr} (he : e ∈ v.live) (ht : t ∈ v.live)
    (hl : v.link (e, d) = linkTo t) :
    Does (claim d e (v.ref (linkTo t))) v true (v.setLink (e, d) ⟨some t, true⟩) := by
  intro q hq
  have hlink := hq.setLink he d ⟨some t, true⟩ (by rintro t' ⟨⟩; exact ht)
  have hext := hlink.setExt (record d (claimed e) q.ext) rfl hq.head hq.tail hq.length
  refine ⟨_, ?_, ⟨hext, hq.free_le⟩⟩
  simp [claim, hq.link e he d, hl, View.ref, markOff, markOn, linkTo]

/-! ## References -/

theorem derefNode_does (he : e ∈ v.live) :
    Does (derefNode (v.node e)) v (some (v.node e)) (v.retain e) := by
  intro q hq
  exact ⟨_, derefNode_run (hq.node e he) rfl, ⟨hq.setCount he _, hq.free_le⟩⟩

theorem retain_does (he : e ∈ v.live) : Does (Queue.retain (v.node e)) v () (v.retain e) :=
  (derefNode_does he).bind (Does.pure _ ())

theorem derefLinkInternal_does {d : Dir} {t : Addr} (skip : Bool) (he : e ∈ v.live)
    (ht : t ∈ v.live) (hl : (v.link (e, d)).target = some t)
    (hm : ((v.link (e, d)).mark && skip) = false) :
    Does (derefLinkInternal (e, d) skip) v (some (v.node t)) (v.retain t) := by
  intro q hq
  have hnode : (v.ref (v.link (e, d))).node = some (v.node t) := by simp [View.ref, hl]
  exact ⟨_, derefLinkInternal_run skip (hq.link e he d) hm hnode (hq.node t ht) rfl,
    ⟨hq.setCount ht _, hq.free_le⟩⟩

variable {bound : ℕ}

theorem release_does (he : e ∈ v.live) (hc : 1 < v.count e) :
    Does (Queue.release bound (v.node e)) v () (v.release e) := by
  intro q hq
  have hfree : q.freeList.length ≤ q.gcThreshold := hq.threshold ▸ hq.free_le
  exact ⟨_, releaseRef_run bound _ (hq.node e he) rfl hc hfree,
    ⟨hq.setCount he _, hq.free_le⟩⟩

/-! ## Collection -/

theorem collect_run {q : Queue V} {n : Addr} {rest : List Addr} (hq : Sees q v)
    (hfree : q.freeList = n :: rest) :
    ∃ q', (collect queueReusableEntry n).run { q with freeList := rest } = some (q', ()) ∧
      Sees q' v ∧ q'.freeList = rest := by
  obtain ⟨nd, hnd⟩ := hq.retired n (by rw [hfree]; exact List.mem_cons_self)
  obtain ⟨w, hw⟩ := hnd.entry
  obtain ⟨hfreed, hrest, hpool, hown⟩ := hq.freeEntry hfree hnd
  have hreuse : queueReusableEntry nd.ptr { q with freeList := rest } =
      some (Sees.freed q nd.ptr rest) := by
    simp [queueReusableEntry, Heap.free_eq_some hw]
  by_cases hlt : q.nodePool.length < nodePoolSize
  · refine ⟨_, ?_, hfreed.recycle (by rw [hnd.node]; rfl) hpool hown, rfl⟩
    simp [collect, Prog.run_bind, hnd.node, hreuse, recycleNode, hlt]
  · refine ⟨_, ?_, hfreed.freeNode hrest hpool hown, rfl⟩
    simp [collect, Prog.run_bind, hnd.node, hreuse, recycleNode, hlt, Heap.free_eq_some hnd.node]

theorem gcLoop_run (n : ℕ) (q : Queue V) (hq : Sees q v) (hle : q.freeList.length ≤ n + 2 ^ 9) :
    ∃ q', (gcLoop queueReusableEntry (2 ^ 9) (n + 1)).run q = some (q', ()) ∧ Shows q' v := by
  obtain ⟨q', hrun, hq', hle'⟩ := gcLoop_keeps queueReusableEntry
    (I := fun q => Sees q v) (2 ^ 9)
    (fun _ _ _ hq hfree => collect_run hq hfree) n q hq hle
  exact ⟨q', hrun, ⟨hq', by omega⟩⟩

/-- Giving back the last reference to an entry without links terminates its node. -/
theorem release_last_does (hb : 2 ^ 9 + 2 ≤ bound) (he : e ∈ v.live) (hc : v.count e = 1)
    (hl : ∀ d, v.link (e, d) = noLink) :
    Does (Queue.release bound (v.node e)) v () (v.drop e) := by
  intro q hq
  have hsize : q.freeList.length < freeListSize q.gcThreshold := by
    rw [hq.threshold]
    exact lt_of_le_of_lt hq.free_le (lt_freeListSize (by decide))
  have hdrop := hq.drop he hl ⟨e, 0, true⟩ rfl
  rw [Queue.release, releaseRef_run_last bound _ (hq.node e he) rfl hc hsize]
  by_cases hlt : q.freeList.length < 2 ^ 10
  · have hle : (q.freeList ++ [v.node e]).length ≤ 2 ^ 10 := by
      rw [List.length_append, List.length_singleton]
      omega
    exact ⟨_, gcIfDue_run bound _ (hq.threshold ▸ hle), ⟨hdrop, hle⟩⟩
  · have hlen : q.freeList.length = 2 ^ 10 := by
      have := hq.free_le
      omega
    obtain ⟨k, rfl⟩ : ∃ k, bound = k + 2 ^ 9 + 2 := ⟨bound - (2 ^ 9 + 2), by omega⟩
    obtain ⟨q', hrun, hq'⟩ := gcLoop_run (k + 2 ^ 9 + 1) _ hdrop (by
      rw [List.length_append, List.length_singleton]
      omega)
    refine ⟨q', ?_, hq'⟩
    simpa [gcIfDue, freeCount, Prog.run_bind, hlen, hq.threshold] using hrun

/-! ## Storing a reference -/

/-- A reference goes into a link that was null. -/
theorem store_does {d : Dir} {t : Addr} (hb : 0 < bound) (he : e ∈ v.live) (ht : t ∈ v.live)
    (hl : v.link (e, d) = noLink) :
    Does (Queue.store bound (e, d) (some (v.node t))) v ()
      ((v.setLink (e, d) (linkTo t)).retain t) := by
  have hex : Does (exchangeLink (e, d) ⟨some (v.node t), false⟩ bound) v null
      (v.setLink (e, d) (linkTo t)) := by
    intro q hq
    have hlink := hq.link e he d
    rw [hl] at hlink
    exact ⟨_, exchangeLink_run _ hb hlink,
      ⟨hq.setLink he d (linkTo t) (by rintro t' ⟨⟩; exact ht), hq.free_le⟩⟩
  exact hex.bind ((derefNode_does (v := v.setLink (e, d) (linkTo t)) ht).bind (Does.pure _ ()))

/-- A link that led somewhere becomes null. -/
theorem clear_does {d : Dir} {t : Addr} (hb : 0 < bound) (he : e ∈ v.live) (ht : t ∈ v.live)
    (hl : (v.link (e, d)).target = some t) (hc : 1 < v.count t) :
    Does (Queue.store bound (e, d) none) v () ((v.setLink (e, d) noLink).release t) := by
  have hex : Does (exchangeLink (e, d) ⟨none, false⟩ bound) v (v.ref (v.link (e, d)))
      (v.setLink (e, d) noLink) := by
    intro q hq
    exact ⟨_, exchangeLink_run _ hb (hq.link e he d),
      ⟨hq.setLink he d noLink (by rintro t' ⟨⟩), hq.free_le⟩⟩
  have hnode : (v.ref (v.link (e, d))).node = some (v.node t) := by simp [View.ref, hl]
  have hne : v.ref (v.link (e, d)) ≠ null := by
    intro heq
    rw [heq] at hnode
    cases hnode
  refine hex.bind ?_
  simp only [if_neg hne, releaseOld, hnode]
  exact release_does (v := v.setLink (e, d) noLink) ht hc

/-! ## Entries and the length -/

theorem allocEntry_does (value : Option V) (q : Queue V) (hq : Shows q v) :
    ∃ q' e n, (allocEntry value).run q = some (q', e) ∧ e ∉ v.live ∧ e ∉ v.terminated ∧
      Shows q' (v.create e n value) := by
  have hnew : q.ext.entries.brk ∉ v.live := fun hmem => lt_irrefl _ (hq.lt_brk hmem)
  have hterm : q.ext.entries.brk ∉ v.terminated :=
    fun hmem => lt_irrefl _ ((hq.mem_terminated _).mp hmem).1
  cases hpool : q.nodePool with
  | nil =>
      have hcreate := hq.create (q.nodes.alloc ⟨q.ext.entries.brk, 1, false⟩).1 q.nodePool
        q.nodes.brk value
        (by rw [Heap.alloc_apply, if_pos rfl])
        (fun m hm => by rw [Heap.alloc_apply, if_neg hm])
        (fun e ent he heq => by
          obtain ⟨nd, hnd, -⟩ := hq.owner e ent he
          rw [heq, Heap.brk_apply] at hnd
          cases hnd)
        (List.Sublist.refl _) (by rw [hpool]; exact List.not_mem_nil)
      refine ⟨_, _, _, ?_, hnew, hterm, ⟨hcreate, hq.free_le⟩⟩
      simp [allocEntry, newNode, hpool]
  | cons m pool =>
      have hnodup := hq.pool_nodup
      rw [hpool, List.nodup_cons] at hnodup
      have hmem : m ∈ q.nodePool := by rw [hpool]; exact List.mem_cons_self
      obtain ⟨nd, hnd⟩ := Option.isSome_iff_exists.mp (hq.pool m hmem)
      have hcreate := hq.create (q.nodes.put m ⟨q.ext.entries.brk, 1, false⟩) pool m value
        (Heap.put_self hnd) (fun m' hm' => Heap.put_of_ne hm')
        (fun e ent he heq => hq.pool_unused e ent he (heq ▸ hmem))
        (by rw [hpool]; exact List.sublist_cons_self m pool) hnodup.1
      refine ⟨_, _, _, ?_, hnew, hterm, ⟨hcreate, hq.free_le⟩⟩
      simp [allocEntry, newNode, hpool, hnd]

theorem incrementLength_does :
    Does incrementLength v () { v with length := v.length + 1 } := by
  intro q hq
  have hext := hq.setExt { q.ext with length := q.ext.length + 1 } rfl hq.head hq.tail
    (congrArg (· + 1) hq.length)
  exact ⟨_, by simp [incrementLength], ⟨hext, hq.free_le⟩⟩

theorem decrementLength_does (d : Dir) (hpos : v.length ≠ 0) :
    Does (decrementLength d) v () { v with length := v.length - 1 } := by
  intro q hq
  have hext := hq.setExt (record d decremented { q.ext with length := q.ext.length - 1 }) rfl
    hq.head hq.tail (congrArg (· - 1) hq.length)
  have hne : q.ext.length ≠ 0 := hq.length ▸ hpos
  exact ⟨_, by simp [decrementLength, hne], ⟨hext, hq.free_le⟩⟩

end Queue
end LibHL
