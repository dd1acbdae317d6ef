import LibHL.RefCnt.Sessions
import LibHL.Support.LiveCells
import Mathlib.Data.Set.Card
import Mathlib.Data.Multiset.Range

/-!
# Free lists, pools and terminated nodes

The invariant of a reference counter that a single thread uses: which nodes are on the
free list or in the pool, which have been terminated and which freed.  It does not speak
of the references; these are counted for a whole session.
-/

namespace LibHL
namespace RefCnt

variable {A V : Type} {rc rc' : Counted A V} {made : ℕ} {n : Addr} {nd : RefcntNode (ℕ × V)}

open Session (refcount)

/-! ## Nodes -/

/-- Distinct live cells can be released one after the other. -/
theorem exists_foldlM_free {α : Type} :
    ∀ (ns : List Addr) (nodes : Heap α), ns.Nodup → (∀ n ∈ ns, (nodes n).isSome) →
      ∃ nodes', ns.foldlM (fun nodes n => nodes.free n) nodes = some nodes' := by
  intro ns
  induction ns with
  | nil => exact fun nodes _ _ => ⟨nodes, rfl⟩
  | cons n ns ih =>
      intro nodes hnodup hlive
      obtain ⟨v, hv⟩ := Option.isSome_iff_exists.mp (hlive n List.mem_cons_self)
      obtain ⟨hnot, hnodup'⟩ := List.nodup_cons.mp hnodup
      obtain ⟨nodes', hrun⟩ := ih (nodes.kill n) hnodup' (by
        intro m hm
        have hne : m ≠ n := by
          rintro rfl
          exact hnot hm
        rw [Heap.kill_apply, if_neg hne]
        exact hlive m (List.mem_cons_of_mem n hm))
      refine ⟨nodes', ?_⟩
      rw [List.foldlM_cons, Heap.free_eq_some hv]
      exact hrun

/-- The number of a node, and whether its count is zero. -/
def status (nd : RefcntNode (ℕ × V)) : ℕ × Bool := (nd.ptr.1, nd.count == 0)

/-- The numbers of the nodes whose count is not zero. -/
def inUse (nodes : Heap (RefcntNode (ℕ × V))) : Multiset ℕ :=
  (Heap.bag status nodes).filterMap fun p => if p.2 then none else some p.1

theorem inUse_kill {nodes : Heap (RefcntNode (ℕ × V))} (hn : nodes n = some nd) :
    inUse nodes = (if nd.count = 0 then 0 else {nd.ptr.1}) + inUse (nodes.kill n) := by
  rw [inUse, Heap.bag_kill hn]
  by_cases hc : nd.count = 0
  · rw [Multiset.filterMap_cons_none _ _ (by simp [status, hc]), if_pos hc, zero_add]
    rfl
  · rw [Multiset.filterMap_cons_some _ _ _ (b := nd.ptr.1) (by simp [status, hc]), if_neg hc]
    rfl

theorem inUse_put {nodes : Heap (RefcntNode (ℕ × V))} {w : RefcntNode (ℕ × V)}
    (hn : nodes n = some nd) :
    inUse (nodes.put n w) = (if w.count = 0 then 0 else {w.ptr.1}) + inUse (nodes.kill n) := by
  rw [inUse, Heap.bag_put hn]
  by_cases hc : w.count = 0
  · rw [Multiset.filterMap_cons_none _ _ (by simp [status, hc]), if_pos hc, zero_add]
    rfl
  · rw [Multiset.filterMap_cons_some _ _ _ (b := w.ptr.1) (by simp [status, hc]), if_neg hc]
    rfl

theorem inUse_alloc (nodes : Heap (RefcntNode (ℕ × V))) {w : RefcntNode (ℕ × V)}
    (hc : w.count ≠ 0) : inUse (nodes.alloc w).1 = w.ptr.1 ::ₘ inUse nodes := by
  rw [inUse, Heap.bag_alloc,
    Multiset.filterMap_cons_some _ _ _ (b := w.ptr.1) (by simp [status, hc])]
  rfl

theorem mem_inUse {nodes : Heap (RefcntNode (ℕ × V))} {k : ℕ} :
    k ∈ inUse nodes ↔ ∃ n nd, nodes n = some nd ∧ nd.ptr.1 = k ∧ nd.count ≠ 0 := by
  rw [inUse, Multiset.mem_filterMap]
  constructor
  · rintro ⟨p, hp, heq⟩
    obtain ⟨n, nd, hn, rfl⟩ := Heap.exists_of_mem_bag hp
    by_cases hc : nd.count = 0
    · simp [status, hc] at heq
    · exact ⟨n, nd, hn, by simpa [status, hc] using heq, hc⟩
  · rintro ⟨n, nd, hn, rfl, hc⟩
    exact ⟨status nd, Heap.mem_bag_of_eq_some hn, by simp [status, hc]⟩

/-- The invariant of a reference counter between calls, and inside a collection. -/
structure Balanced (rc : Counted A V) (made : ℕ) : Prop where
  flag : ∀ n nd, rc.nodes n = some nd → (nd.updating = true ↔ nd.count = 0)
  retired : ∀ n, n ∈ rc.freeList ++ rc.nodePool ↔ ∃ nd, rc.nodes n = some nd ∧ nd.count = 0
  nodup : (rc.freeList ++ rc.nodePool).Nodup
  numbered : inUse rc.nodes + ↑(rc.terminated.map Prod.fst) = Multiset.range made
  waiting : rc.terminated.map some =
    rc.ext.map (fun c => some c.ptr) ++ rc.freeList.map fun n => (rc.nodes n).map RefcntNode.ptr
  afterwards : ∀ c ∈ rc.ext, c.terminated = true

/-- What does not change in a collection. -/
structure Collected (rc rc' : Counted A V) : Prop where
  refcount : refcount rc' = refcount rc
  links : rc'.links = rc.links
  gcThreshold : rc'.gcThreshold = rc.gcThreshold
  terminated : rc'.terminated = rc.terminated

theorem Collected.refl (rc : Counted A V) : Collected rc rc := ⟨rfl, rfl, rfl, rfl⟩

theorem Collected.trans {rc'' : Counted A V} (h : Collected rc rc') (h' : Collected rc' rc'') :
    Collected rc rc'' :=
  ⟨h'.refcount.trans h.refcount, h'.links.trans h.links, h'.gcThreshold.trans h.gcThreshold,
    h'.terminated.trans h.terminated⟩

theorem refcount_eq (hn : rc.nodes n = some nd) : refcount rc n = nd.count.toNat := by
  simp [refcount, hn]

theorem refcount_put {w : RefcntNode (ℕ × V)} (hn : rc.nodes n = some nd) :
    refcount { rc with nodes := rc.nodes.put n w } =
      Function.update (refcount rc) n w.count.toNat := by
  funext m
  by_cases hm : m = n
  · subst hm
    rw [Function.update_self, refcount_eq (Heap.put_self hn)]
  · rw [Function.update_of_ne hm]
    simp only [refcount, Heap.put_of_ne hm]

theorem exists_of_refcount_pos (h : 0 < refcount rc n) :
    ∃ nd, rc.nodes n = some nd ∧ nd.count ≠ 0 := by
  cases hn : rc.nodes n with
  | none => simp [refcount, hn] at h
  | some nd =>
      refine ⟨nd, rfl, ?_⟩
      rintro hc
      simp [refcount, hn, hc] at h

namespace Balanced

variable (h : Balanced rc made)
include h

theorem notMem_of_count_ne (hn : rc.nodes n = some nd) (hc : nd.count ≠ 0) :
    n ∉ rc.freeList ++ rc.nodePool := by
  intro hmem
  obtain ⟨nd', hn', hc'⟩ := (h.retired n).mp hmem
  rw [hn] at hn'
  cases hn'
  exact hc hc'

theorem setCount (hn : rc.nodes n = some nd) (hc : nd.count ≠ 0) {c : UInt32} (hc' : c ≠ 0) :
    Balanced { rc with nodes := rc.nodes.put n { nd with count := c } } made where
  flag := by
    intro m md hm
    by_cases hmn : m = n
    · subst hmn
      rw [Heap.put_self hn] at hm
      cases hm
      have hflag := h.flag m nd hn
      simp only [hc, iff_false] at hflag
      simp [hflag, hc']
    · rw [Heap.put_of_ne hmn] at hm
      exact h.flag m md hm
  retired := by
    intro m
    rw [h.retired m]
    by_cases hmn : m = n
    · subst hmn
      simp [Heap.put_self hn, hn, hc, hc']
    · simp only [Heap.put_of_ne hmn]
  nodup := h.nodup
  numbered := by
    rw [inUse_put hn, if_neg hc', ← h.numbered, inUse_kill hn, if_neg hc]
  waiting := by
    rw [h.waiting]
    congr 1
    refine List.map_congr_left ?_
    intro m hm
    have hmn : m ≠ n := by
      rintro rfl
      exact h.notMem_of_count_ne hn hc (List.mem_append_left _ hm)
    rw [Heap.put_of_ne hmn]
  afterwards := h.afterwards

/-- The last reference to a node is given back, and there is room on the free list. -/
theorem terminate (hn : rc.nodes n = some nd) (hc : nd.count ≠ 0) :
    Balanced { rc with
      nodes := rc.nodes.put n { nd with count := 0, updating := true }
      freeList := rc.freeList ++ [n]
      terminated := rc.terminated ++ [nd.ptr] } made where
  flag := by
    intro m md hm
    by_cases hmn : m = n
    · subst hmn
      rw [Heap.put_self hn] at hm
      cases hm
      simp
    · rw [Heap.put_of_ne hmn] at hm
      exact h.flag m md hm
  retired := by
    intro m
    have hmem : m ∈ rc.freeList ++ [n] ++ rc.nodePool ↔
        m = n ∨ m ∈ rc.freeList ++ rc.nodePool := by
      simp only [List.mem_append, List.mem_singleton]
      tauto
    rw [hmem, h.retired m]
    by_cases hmn : m = n
    · subst hmn
      simp [Heap.put_self hn]
    · simp [Heap.put_of_ne hmn, hmn]
  nodup := by
    have hperm : (n :: (rc.freeList ++ rc.nodePool)).Perm (rc.freeList ++ [n] ++ rc.nodePool) := by
      rw [List.append_assoc]
      exact List.perm_middle.symm
    exact hperm.nodup_iff.mp (List.nodup_cons.mpr ⟨h.notMem_of_count_ne hn hc, h.nodup⟩)
  numbered := by
    rw [inUse_put hn, if_pos rfl, ← h.numbered, inUse_kill hn, if_neg hc, List.map_append,
      ← Multiset.coe_add, zero_add, add_comm {nd.ptr.1}, add_assoc, add_comm {nd.ptr.1}]
    rfl
  waiting := by
    rw [List.map_append, h.waiting, List.map_append, List.append_assoc]
    congr 2
    · refine List.map_congr_left ?_
      intro m hm
      have hmn : m ≠ n := by
        rintro rfl
        exact h.notMem_of_count_ne hn hc (List.mem_append_left _ hm)
      rw [Heap.put_of_ne hmn]
    · simp [Heap.put_self hn]
  afterwards := h.afterwards

theorem collect_run {rest : List Addr} (hfree : rc.freeList = n :: rest) :
    ∃ rc', (collect freeNodePtr n).run { rc with freeList := rest } = some (rc', ()) ∧
      (Balanced rc' made ∧ Collected rc rc') ∧ rc'.freeList = rest := by
  have hmem : n ∈ rc.freeList ++ rc.nodePool := by simp [hfree]
  obtain ⟨nd, hn, hc⟩ := (h.retired n).mp hmem
  have hnodup := h.nodup
  have hwaiting := h.waiting
  rw [hfree, List.cons_append, List.nodup_cons] at hnodup
  rw [hfree, List.map_cons, hn] at hwaiting
  have hdone : nd.ptr ∈ rc.terminated := by
    have hin : some nd.ptr ∈ rc.terminated.map some := by rw [hwaiting]; simp
    simpa using hin
  have hany : rc.terminated.any (fun p => p.1 == nd.ptr.1) = true :=
    List.any_eq_true.mpr ⟨nd.ptr, hdone, by simp⟩
  have hext : ∀ c ∈ rc.ext ++ [⟨nd.ptr, true⟩], FreeCall.terminated c = true := by
    intro c hmem
    rcases List.mem_append.mp hmem with hold | hnew
    · exact h.afterwards c hold
    · rw [List.mem_singleton.mp hnew]
  by_cases hlt : rc.nodePool.length < nodePoolSize
  · refine ⟨{ rc with
      freeList := rest
      ext := rc.ext ++ [⟨nd.ptr, true⟩]
      nodePool := rc.nodePool ++ [n] }, ?_, ⟨⟨h.flag, ?_, ?_, h.numbered, ?_, hext⟩, rfl, rfl,
      rfl, rfl⟩, rfl⟩
    · simp [collect, Prog.run_bind, hn, freeNodePtr, hany, recycleNode, hlt]
    · intro m
      rw [← h.retired m, hfree]
      simp only [List.mem_append, List.mem_cons]
      tauto
    · have hperm : (n :: (rest ++ rc.nodePool)).Perm (rest ++ (rc.nodePool ++ [n])) := by
        rw [← List.append_assoc]
        exact (List.perm_append_singleton n _).symm
      exact hperm.nodup_iff.mp (List.nodup_cons.mpr hnodup)
    · simpa using hwaiting
  · have hne : ∀ m ∈ rest ++ rc.nodePool, m ≠ n := by
      rintro m hm rfl
      exact hnodup.1 hm
    refine ⟨{ rc with
      nodes := rc.nodes.kill n
      freeList := rest
      ext := rc.ext ++ [⟨nd.ptr, true⟩] }, ?_, ⟨⟨?_, ?_, hnodup.2, ?_, ?_, hext⟩, ?_, rfl, rfl,
      rfl⟩, rfl⟩
    · simp [collect, Prog.run_bind, hn, freeNodePtr, hany, recycleNode, hlt,
        Heap.free_eq_some hn]
    · intro m md hm
      by_cases hmn : m = n
      · subst hmn
        simp [Heap.kill_apply] at hm
      · rw [Heap.kill_apply, if_neg hmn] at hm
        exact h.flag m md hm
    · intro m
      by_cases hmn : m = n
      · subst hmn
        simpa [Heap.kill_apply] using hnodup.1
      · have hold := h.retired m
        rw [hfree, List.cons_append, List.mem_cons] at hold
        simp only [hmn, false_or] at hold
        simpa only [Heap.kill_apply, if_neg hmn] using hold
    · have hnumbered := h.numbered
      rw [inUse_kill hn, if_pos hc, zero_add] at hnumbered
      exact hnumbered
    · rw [hwaiting, List.map_append, List.append_assoc]
      congr 2
      refine List.map_congr_left ?_
      intro m hm
      rw [Heap.kill_apply, if_neg (hne m (List.mem_append_left _ hm))]
    · funext m
      by_cases hmn : m = n
      · subst hmn
        simp [refcount, Heap.kill_apply, hn, hc]
      · simp only [refcount, Heap.kill_apply, if_neg hmn]

theorem collect_keeps {rc₀ : Counted A V} (hcoll : Collected rc₀ rc) {rest : List Addr}
    (hfree : rc.freeList = n :: rest) :
    ∃ rc', (collect freeNodePtr n).run { rc with freeList := rest } = some (rc', ()) ∧
      (Balanced rc' made ∧ Collected rc₀ rc') ∧ rc'.freeList = rest := by
  obtain ⟨rc', hrun, ⟨hbal, hcoll'⟩, hrest⟩ := h.collect_run hfree
  exact ⟨rc', hrun, ⟨hbal, hcoll.trans hcoll'⟩, hrest⟩

theorem alloc (v : V) :
    Balanced { rc with nodes := (rc.nodes.alloc ⟨(made, v), 1, false⟩).1 } (made + 1) := by
  have hnew : ∀ m, m ∈ rc.freeList ++ rc.nodePool → m ≠ rc.nodes.brk := by
    rintro m hm rfl
    obtain ⟨nd, hn, -⟩ := (h.retired _).mp hm
    rw [Heap.brk_apply] at hn
    cases hn
  refine ⟨?_, ?_, h.nodup, ?_, ?_, h.afterwards⟩
  · intro m md hm
    rw [Heap.alloc_apply] at hm
    by_cases hmn : m = rc.nodes.brk
    · rw [if_pos hmn] at hm
      cases hm
      simp
    · rw [if_neg hmn] at hm
      exact h.flag m md hm
  · intro m
    by_cases hmn : m = rc.nodes.brk
    · constructor
      · exact fun hm => absurd hmn (hnew m hm)
      · rintro ⟨md, hm, hc⟩
        rw [Heap.alloc_apply, if_pos hmn] at hm
        cases hm
        simp at hc
    · rw [h.retired m]
      simp only [Heap.alloc_apply, if_neg hmn]
  · rw [inUse_alloc _ (by simp), Multiset.cons_add, h.numbered, Multiset.range_succ]
  · rw [h.waiting]
    congr 1
    refine List.map_congr_left ?_
    intro m hm
    rw [Heap.alloc_apply, if_neg (hnew m (List.mem_append_left _ hm))]

theorem reuse {pool : List Addr} (hpool : rc.nodePool = n :: pool) (v : V) :
    Balanced { rc with nodes := rc.nodes.put n ⟨(made, v), 1, false⟩, nodePool := pool }
      (made + 1) := by
  obtain ⟨nd, hn, hc⟩ := (h.retired n).mp (by simp [hpool])
  have hperm : (rc.freeList ++ rc.nodePool).Perm (n :: (rc.freeList ++ pool)) := by
    rw [hpool]
    exact List.perm_middle
  have hnodup := List.nodup_cons.mp (hperm.nodup_iff.mp h.nodup)
  refine ⟨?_, ?_, hnodup.2, ?_, ?_, h.afterwards⟩
  · intro m md hm
    by_cases hmn : m = n
    · subst hmn
      rw [Heap.put_self hn] at hm
      cases hm
      simp
    · rw [Heap.put_of_ne hmn] at hm
      exact h.flag m md hm
  · intro m
    by_cases hmn : m = n
    · subst hmn
      simpa [Heap.put_self hn] using hnodup.1
    · have hold := h.retired m
      rw [hperm.mem_iff, List.mem_cons] at hold
      simp only [hmn, false_or] at hold
      simpa only [Heap.put_of_ne hmn] using hold
  · have hnumbered := h.numbered
    rw [inUse_kill hn, if_pos hc, zero_add] at hnumbered
    rw [inUse_put hn, if_neg (by simp), add_assoc, hnumbered, Multiset.range_succ]
    rfl
  · rw [h.waiting]
    congr 1
    refine List.map_congr_left ?_
    intro m hm
    have hmn : m ≠ n := by
      rintro rfl
      exact hnodup.1 (List.mem_append_left _ hm)
    rw [Heap.put_of_ne hmn]

end Balanced

/-! ## Calls -/

/-- Between calls the free list is not due for a collection. -/
structure Settled (rc : Counted A V) (made : ℕ) : Prop extends Balanced rc made where
  free_le : rc.freeList.length ≤ rc.gcThreshold

theorem derefNode_refuses (h : Balanced rc made) (hn : rc.nodes n = some nd)
    (hc : refcount rc n = 0) : (derefNode n).run rc = some (rc, none) := by
  rw [refcount_eq hn] at hc
  have hzero : nd.count = 0 := UInt32.toNat_inj.mp hc
  have hflag := (h.flag n nd hn).mpr hzero
  simp [derefNode, Prog.run_bind, hn, hflag, hzero]

/-- The collection at the end of a release. -/
theorem Balanced.gcIfDue_settles (h : Balanced rc made) (bound : ℕ)
    (hle : rc.freeList.length ≤ rc.gcThreshold + 1) (hbound : rc.freeList.length < bound) :
    ∃ rc', (gcIfDue bound freeNodePtr).run rc = some (rc', ()) ∧ Settled rc' made ∧
      Collected rc rc' := by
  by_cases hdue : rc.gcThreshold < rc.freeList.length
  · obtain ⟨k, rfl⟩ : ∃ k, bound = k + 1 := ⟨bound - 1, by omega⟩
    obtain ⟨rc', hrun, ⟨hbal, hcoll⟩, hlen⟩ := gcLoop_keeps freeNodePtr
      (I := fun rc' => Balanced rc' made ∧ Collected rc rc') (rc.gcThreshold / 2)
      (fun q n rest hq hfree => hq.1.collect_keeps hq.2 hfree) k rc ⟨h, .refl rc⟩ (by omega)
    refine ⟨rc', ?_, ⟨hbal, ?_⟩, hcoll⟩
    · simp [gcIfDue, freeCount, Prog.run_bind, hdue, hrun]
    · rw [hcoll.gcThreshold]
      omega
  · exact ⟨rc, gcIfDue_run bound _ (Nat.not_lt.mp hdue), ⟨h, Nat.not_lt.mp hdue⟩, .refl rc⟩

namespace Settled

variable (h : Settled rc made)
include h

/-- A reference is taken to a node that is in use. -/
theorem derefNode_takes (hpos : 0 < refcount rc n) (hroom : refcount rc n + 1 < 2 ^ 32) :
    ∃ rc', (derefNode n).run rc = some (rc', some n) ∧ Settled rc' made ∧
      rc'.links = rc.links ∧ rc'.freeList = rc.freeList ∧ rc'.gcThreshold = rc.gcThreshold ∧
      refcount rc' = Function.update (refcount rc) n (refcount rc n + 1) := by
  obtain ⟨nd, hn, hc⟩ := exists_of_refcount_pos hpos
  rw [refcount_eq hn] at hroom ⊢
  have hnat : (nd.count + 1).toNat = nd.count.toNat + 1 := by
    rw [UInt32.toNat_add]
    exact Nat.mod_eq_of_lt hroom
  have hne : nd.count + 1 ≠ 0 := by
    intro hzero
    rw [hzero] at hnat
    exact Nat.succ_ne_zero _ hnat.symm
  have hflag : nd.updating = false := by
    have hiff := h.flag n nd hn
    simpa [hc] using hiff
  refine ⟨_, derefNode_run hn hflag, ⟨h.setCount hn hc hne, h.free_le⟩, rfl, rfl, rfl, ?_⟩
  rw [refcount_put hn]
  exact congrArg _ hnat

/-- A new node is one that has not been referred to. -/
theorem newNode_makes (v : V) :
    ∃ rc' n, (newNode (made, v)).run rc = some (rc', n) ∧ Settled rc' (made + 1) ∧
      rc'.links = rc.links ∧ refcount rc n = 0 ∧
      refcount rc' = Function.update (refcount rc) n 1 := by
  cases hpool : rc.nodePool with
  | nil =>
      refine ⟨_, rc.nodes.brk, by simp [newNode, hpool], ⟨h.alloc v, h.free_le⟩, rfl, ?_, ?_⟩
      · simp [refcount, Heap.brk_apply]
      · funext m
        by_cases hmn : m = rc.nodes.brk
        · subst hmn
          simp [refcount, Heap.alloc_apply]
        · rw [Function.update_of_ne hmn]
          simp only [refcount, Heap.alloc_apply, if_neg hmn]
  | cons n pool =>
      obtain ⟨nd, hn, hc⟩ := (h.retired n).mp (by simp [hpool])
      refine ⟨_, n, by simp [newNode, hpool, hn], ⟨h.reuse hpool v, h.free_le⟩, rfl, ?_,
        refcount_put hn⟩
      rw [refcount_eq hn, hc]
      rfl

/-- A reference is given back. -/
theorem releaseRef_gives (bound : ℕ) (hpos : 0 < refcount rc n)
    (hroom : refcount rc n = 1 →
      rc.gcThreshold ≤ 0x55555555 ∨ rc.freeList.length < freeListSize rc.gcThreshold)
    (hbound : rc.freeList.length + 2 ≤ bound) :
    ∃ rc', (releaseRef bound freeNodePtr n).run rc = some (rc', ()) ∧ Settled rc' made ∧
      rc'.links = rc.links ∧
      refcount rc' = Function.update (refcount rc) n (refcount rc n - 1) := by
  obtain ⟨nd, hn, hc⟩ := exists_of_refcount_pos hpos
  have hflag : nd.updating = false := by
    have hiff := h.flag n nd hn
    simpa [hc] using hiff
  rw [refcount_eq hn] at hpos hroom ⊢
  by_cases hlast : nd.count = 1
  · have hfree : rc.freeList.length < freeListSize rc.gcThreshold := by
      rcases hroom (by rw [hlast]; rfl) with hsmall | hlt
      · exact Nat.lt_of_le_of_lt h.free_le (lt_freeListSize hsmall)
      · exact hlt
    have hterm := h.terminate hn hc
    obtain ⟨rc', hrun, hset, hcoll⟩ := hterm.gcIfDue_settles bound
      (by simpa using h.free_le) (by simp; omega)
    refine ⟨rc', (releaseRef_run_last bound _ hn hflag hlast hfree).trans hrun, hset,
      hcoll.links, ?_⟩
    rw [hcoll.refcount, hlast]
    exact refcount_put hn
  · have hlt : 1 < nd.count := by grind
    have hne : nd.count - 1 ≠ 0 := by grind
    refine ⟨_, releaseRef_run bound _ hn hflag hlt h.free_le,
      ⟨h.setCount hn hc hne, h.free_le⟩, rfl, ?_⟩
    rw [refcount_put hn]
    have hle : (1 : UInt32) ≤ nd.count := by grind
    exact congrArg _ (UInt32.toNat_sub_of_le _ _ hle)

end Settled
end RefCnt
end LibHL
