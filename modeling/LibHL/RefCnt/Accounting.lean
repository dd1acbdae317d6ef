import LibHL.RefCnt.Invariant

/-!
# Sequential reference accounting

In every run of calls in a single thread, the count of a node is the number of the
references that are held and of the cells that refer to it, a node is terminated when its
count becomes zero, and its pointer is freed later, once, and not after `refcnt_destroy`.
This needs counts that do not overflow, and a free list that is never full: its size is
one and a half times the threshold, taken as an `int`.
-/

namespace LibHL
namespace RefCnt
namespace Session

variable {A V : Type} {s : Session A V} {n : Addr}

/-! ## Cells that refer to a node -/

/-- The cells that refer to a node. -/
def referring (links : A → Option Ref) (n : Addr) : Set A := {a | links a = some (refTo n)}

/-- Another reference in a cell. -/
theorem ncard_referring_update [DecidableEq A] {links : A → Option Ref} {a : A} {old : Ref}
    (new : Ref) (ha : links a = some old) (hfin : (referring links n).Finite) :
    (referring (Function.update links a (some new)) n).Finite ∧
      (referring (Function.update links a (some new)) n).ncard + (if old = refTo n then 1 else 0) =
        (referring links n).ncard + (if new = refTo n then 1 else 0) := by
  have hmem : a ∈ referring links n ↔ old = refTo n := by simp [referring, ha]
  by_cases hnew : new = refTo n
  · have hset : referring (Function.update links a (some new)) n =
        insert a (referring links n) := by
      ext b
      by_cases hb : b = a
      · subst hb
        simp [referring, hnew]
      · simp [referring, hb]
    rw [hset, if_pos hnew]
    by_cases hold : old = refTo n
    · rw [Set.insert_eq_of_mem (hmem.mpr hold), if_pos hold]
      exact ⟨hfin, rfl⟩
    · rw [Set.ncard_insert_of_notMem (fun h => hold (hmem.mp h)) hfin, if_neg hold]
      exact ⟨hfin.insert a, rfl⟩
  · have hset : referring (Function.update links a (some new)) n =
        referring links n \ {a} := by
      ext b
      by_cases hb : b = a
      · subst hb
        simp [referring, hnew]
      · simp [referring, hb]
    rw [hset, if_neg hnew]
    refine ⟨hfin.sdiff, ?_⟩
    by_cases hold : old = refTo n
    · rw [if_pos hold]
      exact Set.ncard_sdiff_singleton_add_one (hmem.mpr hold) hfin
    · rw [if_neg hold, Set.sdiff_singleton_eq_self (fun h => hold (hmem.mp h))]

/-- The invariant of a session: the counts count references and cells. -/
structure Counts (s : Session A V) : Prop extends Settled s.rc s.made where
  unmarked : ∀ a r, s.rc.links a = some r → r.mark = false
  finite : ∀ n, (referring s.rc.links n).Finite
  counts : ∀ n, refcount s.rc n = s.held.count n + (referring s.rc.links n).ncard

theorem counts_start (gcThreshold : UInt32) {links : A → Option Ref}
    (hlinks : ∀ a r, links a = some r → r = null) :
    Counts (start gcThreshold links : Session A V) := by
  have hnone : ∀ n, referring links n = ∅ := by
    intro n
    rw [Set.eq_empty_iff_forall_notMem]
    intro a ha
    have hnull := hlinks a (refTo n) ha
    cases hnull
  refine ⟨⟨⟨?_, ?_, ?_, rfl, rfl, ?_⟩, Nat.zero_le _⟩, ?_, ?_, ?_⟩
  · rintro m md hm
    cases hm
  · intro m
    constructor
    · nofun
    · rintro ⟨md, hm, -⟩
      cases hm
  · exact List.nodup_nil
  · nofun
  · intro a r ha
    rw [hlinks a r ha]
    rfl
  · intro m
    show (referring links m).Finite
    rw [hnone m]
    exact Set.finite_empty
  · intro m
    show 0 = 0 + (referring links m).ncard
    rw [hnone m, Set.ncard_empty]

/-! ## Steps -/

namespace Counts

variable (h : Counts s)
include h

theorem refcount_pos_of_cell {a : A} {r : Ref} (ha : s.rc.links a = some r)
    (hn : r.node = some n) : 0 < refcount s.rc n := by
  have hr : r = refTo n := by
    have hmark := h.unmarked a r ha
    cases r with
    | mk node mark =>
        cases hn
        cases hmark
        rfl
  rw [hr] at ha
  have hpos := (Set.ncard_pos (h.finite n)).mpr ⟨a, ha⟩
  rw [h.counts n]
  exact Nat.lt_add_left _ hpos

/-- A call that takes a reference to a node, or finds that the node is not in use. -/
theorem deref (hsome : (s.rc.nodes n).isSome) (htake : CanTake s n) :
    ∃ rc' o, (derefNode n).run s.rc = some (rc', o) ∧
      Counts { s with rc := rc', held := o.toList ++ s.held } := by
  obtain ⟨nd, hn⟩ := Option.isSome_iff_exists.mp hsome
  by_cases hzero : refcount s.rc n = 0
  · exact ⟨s.rc, none, derefNode_refuses h.toBalanced hn hzero, h⟩
  · obtain ⟨rc', hrun, hset, hlinks, -, -, hcount⟩ :=
      h.derefNode_takes (Nat.pos_of_ne_zero hzero) htake
    refine ⟨rc', some n, hrun, ⟨hset, ?_, ?_, ?_⟩⟩
    · rw [hlinks]
      exact h.unmarked
    · rw [hlinks]
      exact h.finite
    · intro m
      have hm := h.counts m
      rw [hcount, hlinks]
      by_cases hmn : m = n
      · subst hmn
        simp only [Function.update_self, Option.toList_some, List.singleton_append,
          List.count_cons_self]
        omega
      · simp only [Function.update_of_ne hmn, Option.toList_some, List.singleton_append,
          List.count_cons_of_ne (Ne.symm hmn), hm]

end Counts

/-- The part of `store_ref` that takes a reference to the new node. -/
def retainStored (ref : Option Addr) : Prog (Counted A V) Unit :=
  match ref with
  | none => pure ()
  | some node => do
      let _ ← retainRef node
      pure ()

/-- The part of `store_ref` that gives back the reference of the old node. -/
def releaseStored (bound : ℕ) (old : Ref) : Prog (Counted A V) Unit :=
  if old = null then pure () else releaseOld bound freeNodePtr old

theorem retainStored_run {rc : Counted A V} {made : ℕ} (ref : Option Addr)
    (h : Settled rc made)
    (htake : ∀ node ∈ ref, 0 < refcount rc node ∧ refcount rc node + 1 < 2 ^ 32) :
    ∃ rc', (retainStored ref).run rc = some (rc', ()) ∧ Settled rc' made ∧
      rc'.links = rc.links ∧ rc'.freeList = rc.freeList ∧ rc'.gcThreshold = rc.gcThreshold ∧
      ∀ n, refcount rc' n = refcount rc n + if ref = some n then 1 else 0 := by
  cases ref with
  | none => exact ⟨rc, rfl, h, rfl, rfl, rfl, fun n => rfl⟩
  | some node =>
      obtain ⟨hpos, hroom⟩ := htake node rfl
      obtain ⟨rc', hrun, hset, hlinks, hfree, hthreshold, hcount⟩ :=
        h.derefNode_takes hpos hroom
      refine ⟨rc', Prog.run_bind_of_run hrun, hset, hlinks, hfree, hthreshold, ?_⟩
      intro n
      rw [hcount]
      by_cases hn : node = n
      · subst hn
        rw [Function.update_self, if_pos rfl]
      · rw [Function.update_of_ne (Ne.symm hn), if_neg (fun heq => hn (Option.some.inj heq))]
        rfl

theorem releaseStored_run {rc : Counted A V} {made : ℕ} (bound : ℕ) (old : Ref)
    (h : Settled rc made) (hmark : old.mark = false)
    (hpos : ∀ node ∈ old.node, 0 < refcount rc node)
    (hroom : ∀ node ∈ old.node, refcount rc node = 1 →
      rc.gcThreshold ≤ 0x55555555 ∨ rc.freeList.length < freeListSize rc.gcThreshold)
    (hbound : rc.freeList.length + 2 ≤ bound) :
    ∃ rc', (releaseStored bound old).run rc = some (rc', ()) ∧ Settled rc' made ∧
      rc'.links = rc.links ∧
      ∀ n, refcount rc' n + (if old = refTo n then 1 else 0) = refcount rc n := by
  obtain ⟨node, mark⟩ := old
  cases hmark
  cases node with
  | none => exact ⟨rc, rfl, h, rfl, fun n => rfl⟩
  | some node =>
      have hnode := hpos node rfl
      obtain ⟨rc', hrun, hset, hlinks, hcount⟩ :=
        h.releaseRef_gives bound hnode (hroom node rfl) hbound
      refine ⟨rc', ?_, hset, hlinks, ?_⟩
      · rw [releaseStored, if_neg (by simp [null])]
        exact hrun
      · intro n
        rw [hcount]
        by_cases hn : node = n
        · subst hn
          rw [Function.update_self, if_pos (by rfl)]
          omega
        · have hne : (⟨some node, false⟩ : Ref) ≠ refTo n := by
            intro heq
            cases heq
            exact hn rfl
          rw [Function.update_of_ne (Ne.symm hn), if_neg hne, Nat.add_zero]

variable [DecidableEq A]

theorem storeRef_eq (bound : ℕ) (a : A) (ref : Option Addr) :
    storeRef bound freeNodePtr a ref = (do
      let old ← exchangeLink a ⟨ref, false⟩ bound
      retainStored ref
      releaseStored bound old : Prog (Counted A V) Unit) := by
  cases ref with
  | none => rfl
  | some node => simp only [retainStored, Prog.bind_assoc]; rfl

theorem exchangeLink_stores {rc : Counted A V} {made : ℕ} {a : A} {old : Ref} (bound : ℕ)
    (new : Ref) (h : Settled rc made) (ha : rc.links a = some old) (hbound : 0 < bound) :
    ∃ rc', (exchangeLink a new bound).run rc = some (rc', old) ∧ Settled rc' made ∧
      rc'.links = Function.update rc.links a (some new) ∧ rc'.freeList = rc.freeList ∧
      rc'.gcThreshold = rc.gcThreshold ∧ refcount rc' = refcount rc :=
  ⟨_, exchangeLink_run new hbound ha,
    ⟨⟨h.flag, h.retired, h.nodup, h.numbered, h.waiting, h.afterwards⟩, h.free_le⟩,
    rfl, rfl, rfl, rfl⟩

namespace Counts

variable (h : Counts s)
include h

theorem store {a : A} {ref : Option Addr} {old : Ref} (ha : s.rc.links a = some old)
    (htake : ∀ node ∈ ref, 0 < refcount s.rc node ∧ CanTake s node)
    (hgive : ∀ node ∈ old.node, ref ≠ some node → CanGive s node) :
    ∃ rc', (storeRef s.rounds freeNodePtr a ref).run s.rc = some (rc', ()) ∧
      Counts { s with rc := rc' } := by
  obtain ⟨rc₁, hrun₁, hset₁, hlinks₁, hfree₁, hthreshold₁, hcount₁⟩ :=
    exchangeLink_stores s.rounds ⟨ref, false⟩ h.toSettled ha (Nat.succ_pos _)
  obtain ⟨rc₂, hrun₂, hset₂, hlinks₂, hfree₂, hthreshold₂, hcount₂⟩ :=
    retainStored_run ref hset₁ (by rw [hcount₁]; exact htake)
  rw [hlinks₁] at hlinks₂
  rw [hfree₁] at hfree₂
  rw [hthreshold₁] at hthreshold₂
  rw [hcount₁] at hcount₂
  have hpos : ∀ node ∈ old.node, 0 < refcount s.rc node :=
    fun node hnode => h.refcount_pos_of_cell ha hnode
  obtain ⟨rc₃, hrun₃, hset₃, hlinks₃, hcount₃⟩ :=
    releaseStored_run s.rounds old hset₂ (h.unmarked a old ha)
      (by
        intro node hnode
        rw [hcount₂]
        exact Nat.lt_of_lt_of_le (hpos node hnode) (Nat.le_add_right _ _))
      (by
        intro node hnode hone
        rw [hthreshold₂, hfree₂]
        have hold := hpos node hnode
        rw [hcount₂] at hone
        by_cases hsame : ref = some node
        · rw [if_pos hsame] at hone
          omega
        · rw [if_neg hsame] at hone
          exact hgive node hnode hsame hone)
      (by rw [hfree₂]; exact Nat.le_refl _)
  refine ⟨rc₃, ?_, hset₃, ?_, ?_, ?_⟩
  · rw [storeRef_eq, Prog.run_bind_of_run hrun₁, Prog.run_bind_of_run hrun₂]
    exact hrun₃
  · intro b r hb
    rw [hlinks₃, hlinks₂] at hb
    by_cases hba : b = a
    · rw [hba, Function.update_self] at hb
      cases hb
      rfl
    · rw [Function.update_of_ne hba] at hb
      exact h.unmarked b r hb
  · intro n
    rw [hlinks₃, hlinks₂]
    exact (ncard_referring_update _ ha (h.finite n)).1
  · intro n
    have hcells := (ncard_referring_update ⟨ref, false⟩ ha (h.finite n)).2
    have hnew : (⟨ref, false⟩ : Ref) = refTo n ↔ ref = some n := by simp [refTo]
    have hn := h.counts n
    have hn₂ := hcount₂ n
    have hn₃ := hcount₃ n
    simp only [hnew] at hcells
    show refcount rc₃ n = s.held.count n + _
    rw [hlinks₃, hlinks₂]
    omega

theorem step_counts {c : Call A V} (hproper : Proper s c) (hkeeps : Keeps s c) :
    ∃ s' o, step s c = some (s', o) ∧ Counts s' := by
  cases c with
  | newNode v =>
      obtain ⟨rc', n, hrun, hset, hlinks, hzero, hcount⟩ := h.newNode_makes v
      refine ⟨⟨rc', n :: s.held, s.made + 1⟩, some n, by simp [step, hrun], hset, ?_, ?_, ?_⟩
      · rw [hlinks]
        exact h.unmarked
      · rw [hlinks]
        exact h.finite
      · intro m
        have hm := h.counts m
        rw [hcount, hlinks]
        by_cases hmn : m = n
        · subst hmn
          rw [Function.update_self, List.count_cons_self]
          omega
        · rw [Function.update_of_ne hmn, List.count_cons_of_ne (Ne.symm hmn), hm]
  | retainRef n =>
      obtain ⟨rc', o, hrun, hcounts⟩ := h.deref hproper hkeeps
      exact ⟨_, o, by simp [step, retainRef, hrun], hcounts⟩
  | derefLink a =>
      obtain ⟨r, ha⟩ := Option.isSome_iff_exists.mp hproper
      have hmark := h.unmarked a r ha
      cases hnode : r.node with
      | none =>
          refine ⟨s, none, ?_, h⟩
          simp [step, derefLink, derefLinkInternal, Prog.run_bind, ha, hmark, hnode]
      | some n =>
          obtain ⟨nd, hn, -⟩ := exists_of_refcount_pos (h.refcount_pos_of_cell ha hnode)
          have htake : CanTake s n := hkeeps n (by simp [target, ha, hnode])
          obtain ⟨rc', o, hrun, hcounts⟩ := h.deref (by rw [hn]; rfl) htake
          refine ⟨_, o, ?_, hcounts⟩
          simp [step, derefLink, derefLinkInternal, Prog.run_bind, ha, hmark, hnode, hrun]
  | releaseRef n =>
      have hheld : 0 < s.held.count n := List.count_pos_iff.mpr hproper
      have hn := h.counts n
      obtain ⟨rc', hrun, hset, hlinks, hcount⟩ :=
        h.releaseRef_gives s.rounds (n := n) (by omega) hkeeps (Nat.le_refl _)
      refine ⟨{ s with rc := rc', held := s.held.erase n }, none, by simp [step, hrun], hset, ?_,
        ?_, ?_⟩
      · rw [hlinks]
        exact h.unmarked
      · rw [hlinks]
        exact h.finite
      · intro m
        have hm := h.counts m
        rw [hcount, hlinks]
        by_cases hmn : m = n
        · subst hmn
          rw [Function.update_self, List.count_erase_self]
          omega
        · rw [Function.update_of_ne hmn, List.count_erase_of_ne hmn, hm]
  | storeRef a ref =>
      obtain ⟨r, ha⟩ := Option.isSome_iff_exists.mp hproper.1
      have hgive : ∀ node ∈ r.node, ref ≠ some node → CanGive s node :=
        fun node hnode => hkeeps.2 node (by simpa [target, ha] using hnode)
      obtain ⟨rc', hrun, hcounts⟩ := h.store ha hkeeps.1 hgive
      exact ⟨_, none, by simp [step, hrun], hcounts⟩

end Counts

/-! ## The end of a session -/

omit [DecidableEq A] in
/-- Every node that was terminated is freed when the reference counter is destroyed. -/
theorem destroy_frees (h : Settled s.rc s.made) :
    ∃ rc', s.destroy = some rc' ∧ rc'.ext.map FreeCall.ptr = s.rc.terminated ∧
      ∀ c ∈ rc'.ext, c.terminated = true := by
  obtain ⟨rc₁, hrun, ⟨hbal, hcoll⟩, hlen⟩ := gcLoop_keeps freeNodePtr
    (I := fun rc' => Balanced rc' s.made ∧ Collected s.rc rc') 0
    (fun q n rest hq hfree => hq.1.collect_keeps hq.2 hfree)
    (s.rc.freeList.length + 1) s.rc ⟨h.toBalanced, .refl s.rc⟩ (Nat.le_succ _)
  have hfree : rc₁.freeList = [] := List.eq_nil_of_length_eq_zero (Nat.le_zero.mp hlen)
  have hnodup := hbal.nodup
  rw [hfree, List.nil_append] at hnodup
  have hlive : ∀ n ∈ rc₁.nodePool, (rc₁.nodes n).isSome := by
    intro n hn
    obtain ⟨nd, hnd, -⟩ := (hbal.retired n).mp (List.mem_append_right _ hn)
    rw [hnd]
    rfl
  obtain ⟨nodes, hnodes⟩ := exists_foldlM_free rc₁.nodePool rc₁.nodes hnodup hlive
  refine ⟨{ rc₁ with nodes := nodes, freeList := [], nodePool := [] }, ?_, ?_, hbal.afterwards⟩
  · rw [destroy, refcntDestroy, rounds, Prog.run_bind_of_run hrun]
    simp [destroyQueues, hnodes]
  · have hwaiting := hbal.waiting
    rw [hfree, List.map_nil, List.append_nil, hcoll.terminated] at hwaiting
    apply List.map_injective_iff.mpr (Option.some_injective (ℕ × V))
    rw [hwaiting, List.map_map]
    rfl

/-- What holds between calls: every count is the number of references and cells, and a
node is terminated, once, if and only if there is no node left that has its number and a
positive count; pointers are freed in the order in which the nodes were terminated, and
afterwards. -/
structure Accounted (s : Session A V) : Prop where
  counted : ∀ n, (refcount s.rc n : ℕ∞) =
    s.held.count n + {a | s.rc.links a = some (refTo n)}.encard
  terminated_once : (s.rc.terminated.map Prod.fst).Nodup
  terminated_iff : ∀ k < s.made, k ∈ s.rc.terminated.map Prod.fst ↔
    ¬ ∃ n nd, s.rc.nodes n = some nd ∧ nd.ptr.1 = k ∧ 0 < nd.count
  freed_of_terminated : s.rc.ext.map FreeCall.ptr <+: s.rc.terminated
  freed_afterwards : ∀ c ∈ s.rc.ext, c.terminated = true

omit [DecidableEq A] in
theorem Counts.accounted (h : Counts s) : Accounted s where
  counted := by
    intro n
    rw [h.counts n, Nat.cast_add]
    congr 1
    exact (h.finite n).cast_ncard_eq
  terminated_once := by
    have hle : (↑(s.rc.terminated.map Prod.fst) : Multiset ℕ) ≤ Multiset.range s.made := by
      rw [← h.numbered]
      exact Multiset.le_add_left _ _
    exact Multiset.coe_nodup.mp (Multiset.nodup_of_le hle (Multiset.nodup_range _))
  terminated_iff := by
    intro k hk
    have hnodup := Multiset.nodup_range s.made
    have hmem := Multiset.mem_range.mpr hk
    rw [← h.numbered] at hnodup hmem
    have hinUse : (∃ n nd, s.rc.nodes n = some nd ∧ nd.ptr.1 = k ∧ 0 < nd.count) ↔
        k ∈ inUse s.rc.nodes := by
      rw [mem_inUse]
      simp only [UInt32.pos_iff_ne_zero]
    rw [hinUse]
    constructor
    · exact fun hterm hin => Multiset.disjoint_left.mp (Multiset.nodup_add.mp hnodup).2.2 hin hterm
    · exact fun hnot => (Multiset.mem_add.mp hmem).resolve_left hnot
  freed_of_terminated := by
    have hfreed : s.rc.ext.map FreeCall.ptr = s.rc.terminated.take s.rc.ext.length := by
      apply List.map_injective_iff.mpr (Option.some_injective (ℕ × V))
      rw [List.map_take, h.waiting, List.map_map, List.take_append_of_le_length (by simp),
        List.take_of_length_le (by simp)]
      rfl
    rw [hfreed]
    exact List.take_prefix _ _
  freed_afterwards := h.afterwards

/-- Every run of calls that keeps the counts below their largest value, the free list
below its size and the cells to nodes that are in use does what reference counting
promises; so do its beginnings, which are such runs. -/
theorem references_accounted (gcThreshold : UInt32) (links : A → Option Ref)
    (hlinks : ∀ a r, links a = some r → r = null) (calls : List (Call A V))
    (hproper : StepsMeet step Proper (start gcThreshold links) calls)
    (hkeeps : StepsMeet step Keeps (start gcThreshold links) calls) :
    ∃ s os rc', runSteps step (start gcThreshold links) calls = some (s, os) ∧ Accounted s ∧
      s.destroy = some rc' ∧ rc'.ext.map FreeCall.ptr = s.rc.terminated ∧
      ∀ c ∈ rc'.ext, c.terminated = true := by
  obtain ⟨s, os, hrun, hs⟩ := runSteps_keeps
    (fun s c (hs : Counts s) hok => hs.step_counts hok.1 hok.2) calls _
    (counts_start gcThreshold hlinks) (hproper.and hkeeps)
  obtain ⟨rc', hdestroy, hfreed⟩ := destroy_frees hs.toSettled
  exact ⟨s, os, rc', hrun, hs.accounted, hdestroy, hfreed⟩

/-- One node that a cell refers to, and one that goes through the free list. -/
def sampleRun : List (Call Bool Unit) :=
  [.newNode (), .storeRef true (some 0), .newNode (), .releaseRef 1, .derefLink true,
    .releaseRef 0, .retainRef 0, .storeRef true none, .releaseRef 0, .newNode ()]

theorem references_accounted_sampleRun :
    ∃ s os rc', runSteps step (start 0 fun _ => some null) sampleRun = some (s, os) ∧
      Accounted s ∧ s.destroy = some rc' ∧ rc'.ext.map FreeCall.ptr = s.rc.terminated ∧
      ∀ c ∈ rc'.ext, c.terminated = true :=
  references_accounted 0 (fun _ => some null) (fun _ _ h => (Option.some.inj h).symm) sampleRun
    (by decide) (by decide +kernel)

/-! ## A free list that is full -/

/-- Nodes that are made and released at once. -/
def churn (first n : ℕ) : List (Call Unit Unit) :=
  (List.range' first n).flatMap fun node => [.newNode (), .releaseRef node]

/-- The state in which this many nodes have been made and released under a threshold whose
free list has the smallest size. -/
structure Filled (n : ℕ) (s : Session Unit Unit) : Prop where
  brk : s.rc.nodes.brk = n
  live : ∀ m < n, (s.rc.nodes m).isSome
  nodePool : s.rc.nodePool = []
  gcThreshold : s.rc.gcThreshold = 0x55555556
  freeList : s.rc.freeList = List.range (min n 256)
  terminated : s.rc.terminated.length = n
  ext : s.rc.ext = []

theorem Filled.newNode {n : ℕ} {s : Session Unit Unit} (h : Filled n s) :
    step s (.newNode ()) = some
      (⟨{ s.rc with nodes := (s.rc.nodes.alloc ⟨(s.made, ()), 1, false⟩).1 }, n :: s.held,
        s.made + 1⟩, some n) := by
  simp [step, RefCnt.newNode, h.nodePool, h.brk]

theorem Filled.round {n : ℕ} {s : Session Unit Unit} (h : Filled n s) :
    ∃ s₁ s₂ o₁ o₂, step s (.newNode ()) = some (s₁, o₁) ∧
      step s₁ (.releaseRef n) = some (s₂, o₂) ∧ n ∈ s₁.held ∧ Filled (n + 1) s₂ := by
  refine ⟨_, ⟨{ s.rc with
      nodes := (s.rc.nodes.alloc ⟨(s.made, ()), 1, false⟩).1.put n ⟨(s.made, ()), 0, true⟩
      freeList := List.range (min (n + 1) 256)
      terminated := s.rc.terminated ++ [(s.made, ())] }, s.held, s.made + 1⟩, _, none,
    h.newNode, ?_, List.mem_cons_self, ?_⟩
  · have hn : (s.rc.nodes.alloc (⟨(s.made, ()), 1, false⟩ : RefcntNode (ℕ × Unit))).1 n =
        some ⟨(s.made, ()), 1, false⟩ := by
      rw [Heap.alloc_apply, if_pos h.brk.symm]
    have hfree : (if s.rc.freeList.length < freeListSize s.rc.gcThreshold
        then s.rc.freeList ++ [n] else s.rc.freeList) = List.range (min (n + 1) 256) := by
      have hsize : freeListSize 0x55555556 = 256 := by decide
      rw [h.gcThreshold, hsize, h.freeList, List.length_range]
      by_cases hlt : n < 256
      · rw [if_pos (by omega), Nat.min_eq_left (by omega), Nat.min_eq_left (by omega),
          List.range_succ]
      · rw [if_neg (by omega), Nat.min_eq_right (by omega), Nat.min_eq_right (by omega)]
    have hrun : ∀ bound, (RefCnt.releaseRef bound freeNodePtr n).run
        { s.rc with nodes := (s.rc.nodes.alloc ⟨(s.made, ()), 1, false⟩).1 } = _ :=
      fun bound => releaseRef_run_terminating bound freeNodePtr hn rfl rfl
    simp only [hfree] at hrun
    have hle : (List.range (min (n + 1) 256)).length ≤ s.rc.gcThreshold := by
      rw [List.length_range, h.gcThreshold]
      omega
    rw [step, hrun, gcIfDue_run _ _ hle]
    simp
  · refine ⟨congrArg (· + 1) h.brk, ?_, h.nodePool, h.gcThreshold, rfl, ?_, h.ext⟩
    · intro m hm
      by_cases hmn : m = n
      · subst hmn
        rw [Heap.put_apply]
        simp [Heap.alloc_apply, h.brk]
      · have hold := h.live m (by omega)
        simpa [Heap.put_of_ne hmn, Heap.alloc_apply, h.brk, hmn] using hold
    · simp [h.terminated]

theorem Filled.churn {k : ℕ} : ∀ {n : ℕ} {s : Session Unit Unit}, Filled n s →
    StepsMeet step Proper s (churn n k) ∧
      ∃ t os, runSteps step s (Session.churn n k) = some (t, os) ∧ Filled (n + k) t := by
  induction k with
  | zero => exact fun h => ⟨trivial, _, [], rfl, h⟩
  | succ k ih =>
      intro n s h
      obtain ⟨s₁, s₂, o₁, o₂, hnew, hrelease, hheld, h₂⟩ := h.round
      obtain ⟨hproper, t, os, hrun, ht⟩ := ih h₂
      refine ⟨⟨trivial, fun r hr => ⟨?_, fun r' hr' => ?_⟩⟩, t, o₁ :: o₂ :: os, ?_, ?_⟩
      · rw [hnew] at hr
        cases hr
        exact hheld
      · rw [hnew] at hr
        cases hr
        rw [hrelease] at hr'
        cases hr'
        exact hproper
      · have hcalls : Session.churn n (k + 1) =
            .newNode () :: .releaseRef n :: Session.churn (n + 1) k := by
          rw [Session.churn, List.range'_succ, List.flatMap_cons]
          rfl
        rw [hcalls, runSteps_cons_of_step hnew, runSteps_cons_of_step hrelease, hrun]
        rfl
      · rw [← Nat.add_assoc, Nat.add_right_comm]
        exact ht

theorem Filled.destroy {n : ℕ} {s : Session Unit Unit} (h : Filled n s) :
    ∃ rc', s.destroy = some rc' ∧ rc'.ext.length = min n 256 := by
  let I : Counted Unit Unit → Prop := fun q =>
    (q.freeList ++ q.nodePool).Nodup ∧ (∀ m ∈ q.freeList ++ q.nodePool, (q.nodes m).isSome) ∧
      q.ext.length + q.freeList.length = min n 256 ∧ q.nodePool.length + q.freeList.length ≤ 256
  have hround : ∀ q m rest, I q → q.freeList = m :: rest →
      ∃ q', (collect freeNodePtr m).run { q with freeList := rest } = some (q', ()) ∧ I q' ∧
        q'.freeList = rest := by
    rintro q m rest ⟨hnodup, hlive, hext, hpool⟩ hfree
    rw [hfree] at hnodup hlive hext hpool
    rw [List.length_cons] at hext hpool
    obtain ⟨nd, hm⟩ := Option.isSome_iff_exists.mp (hlive m (by simp))
    have hlt : q.nodePool.length < nodePoolSize := by
      have hsize : nodePoolSize = 65536 := by decide
      omega
    have hperm : (m :: rest ++ q.nodePool).Perm (rest ++ (q.nodePool ++ [m])) := by
      rw [List.cons_append, ← List.append_assoc]
      exact (List.perm_append_singleton m _).symm
    refine ⟨{ q with
      freeList := rest
      ext := q.ext ++ [⟨nd.ptr, q.terminated.any fun p => p.1 == nd.ptr.1⟩]
      nodePool := q.nodePool ++ [m] }, ?_, ⟨hperm.nodup_iff.mp hnodup, ?_, ?_, ?_⟩, rfl⟩
    · simp [collect, Prog.run_bind, hm, freeNodePtr, recycleNode, hlt]
    · exact fun k hk => hlive k (hperm.mem_iff.mpr hk)
    · simp only [List.length_append, List.length_singleton]
      omega
    · simp only [List.length_append, List.length_singleton]
      omega
  obtain ⟨q, hrun, ⟨hnodup, hlive, hext, -⟩, hlen⟩ := gcLoop_keeps freeNodePtr 0 hround
    (s.rc.freeList.length + 1) s.rc (by
      simp only [I, h.freeList, h.nodePool, h.ext, List.append_nil, List.length_nil,
        List.length_range]
      refine ⟨List.nodup_range, ?_, by omega, by omega⟩
      intro m hm
      have hlt := List.mem_range.mp hm
      exact h.live m (by omega)) (by omega)
  have hfree : q.freeList = [] := List.eq_nil_of_length_eq_zero (Nat.le_zero.mp hlen)
  rw [hfree] at hnodup hlive hext
  obtain ⟨nodes, hnodes⟩ := exists_foldlM_free q.nodePool q.nodes hnodup hlive
  refine ⟨{ q with nodes := nodes, freeList := [], nodePool := [] }, ?_, hext⟩
  rw [Session.destroy, refcntDestroy, rounds, Prog.run_bind_of_run hrun]
  simp [destroyQueues, hnodes]

/-- The size of the free list for a threshold of 1431655766 overflows, so that it has room
for 256 nodes only: the node that is released last is terminated and never freed. -/
theorem full_freeList_drops_node :
    StepsMeet step Proper (start 0x55555556 fun _ => some null) (churn 0 257) ∧
      ∃ s os rc', runSteps step (start 0x55555556 fun _ => some null) (churn 0 257) =
          some (s, os) ∧ s.destroy = some rc' ∧ s.rc.terminated.length = 257 ∧
        rc'.ext.length = 256 := by
  have hstart : Filled 0 (start 0x55555556 fun _ => some null) :=
    ⟨rfl, nofun, rfl, rfl, rfl, rfl, rfl⟩
  obtain ⟨hproper, s, os, hrun, hs⟩ := hstart.churn (k := 257)
  obtain ⟨rc', hdestroy, hext⟩ := hs.destroy
  exact ⟨hproper, s, os, rc', hrun, hdestroy, hs.terminated, hext⟩

end Session
end RefCnt
end LibHL
