import LibHL.Queue.Model
import LibHL.RefCnt.Operations

/-!
# The nodes of the queue

Every entry has a node of its own.  When the entry is terminated, its node goes to the free
list, from there to the pool, and from the pool to a new entry.  No operation of a single
thread loses a node on this way: a node that is neither on the free list nor in the pool is
one of an entry that has not been terminated.
-/

namespace LibHL
namespace Queue

open RefCnt Prog

variable {V : Type} {q q' : Queue V}

/-- No two nodes are for the same entry, and no node of a terminated entry is out of reach,
apart from the node `out` that is being collected. -/
structure NodesKept (out : Option Addr) (q : Queue V) : Prop where
  threshold : q.gcThreshold = 2 ^ 10
  ptr_lt : ∀ n nd, q.nodes n = some nd → nd.ptr < q.ext.entries.brk
  ptr_inj : ∀ n n' nd nd', q.nodes n = some nd → q.nodes n' = some nd' → nd.ptr = nd'.ptr → n = n'
  terminated_lt : ∀ e ∈ q.terminated, e < q.ext.entries.brk
  kept : ∀ n nd, q.nodes n = some nd → nd.ptr ∈ q.terminated →
    n ∈ q.freeList ∨ n ∈ q.nodePool ∨ some n = out

/-- No node is lost, and no collection is due. -/
def Placed (q : Queue V) : Prop := NodesKept none q ∧ q.freeList.length ≤ 2 ^ 10

/-- A step that moves no node, and makes none. -/
structure Gentle (q q' : Queue V) : Prop where
  threshold : q'.gcThreshold = q.gcThreshold
  brk : q'.ext.entries.brk = q.ext.entries.brk
  terminated : q'.terminated = q.terminated
  freeList : q'.freeList = q.freeList
  nodePool : q'.nodePool = q.nodePool
  node : ∀ n nd', q'.nodes n = some nd' → ∃ nd, q.nodes n = some nd ∧ nd.ptr = nd'.ptr

theorem Gentle.refl (q : Queue V) : Gentle q q :=
  ⟨rfl, rfl, rfl, rfl, rfl, fun _ nd h => ⟨nd, h, rfl⟩⟩

theorem NodesKept.gentle {out : Option Addr} (h : NodesKept out q) (hg : Gentle q q') :
    NodesKept out q' where
  threshold := hg.threshold.trans h.threshold
  ptr_lt := by
    intro n nd' hn'
    obtain ⟨nd, hn, hptr⟩ := hg.node n nd' hn'
    rw [hg.brk, ← hptr]
    exact h.ptr_lt n nd hn
  ptr_inj := by
    intro n m nd' md' hn' hm' heq
    obtain ⟨nd, hn, hptr⟩ := hg.node n nd' hn'
    obtain ⟨md, hm, hptr'⟩ := hg.node m md' hm'
    exact h.ptr_inj n m nd md hn hm (hptr.trans (heq.trans hptr'.symm))
  terminated_lt := by
    rw [hg.terminated, hg.brk]
    exact h.terminated_lt
  kept := by
    intro n nd' hn' hterm
    obtain ⟨nd, hn, hptr⟩ := hg.node n nd' hn'
    rw [hg.terminated, ← hptr] at hterm
    rw [hg.freeList, hg.nodePool]
    exact h.kept n nd hn hterm

theorem Placed.gentle (h : Placed q) (hg : Gentle q q') : Placed q' :=
  ⟨h.1.gentle hg, hg.freeList ▸ h.2⟩

/-! ## Gentle steps -/

theorem gentle_put {n : Addr} {nd nd' : RefcntNode Addr} (hn : q.nodes n = some nd)
    (hptr : nd.ptr = nd'.ptr) : Gentle q { q with nodes := q.nodes.put n nd' } := by
  refine { Gentle.refl q with node := ?_ }
  intro m md hm
  by_cases heq : m = n
  · subst heq
    cases (Heap.put_self hn).symm.trans hm
    exact ⟨nd, hn, hptr⟩
  · exact ⟨md, (Heap.put_of_ne heq).symm.trans hm, rfl⟩

theorem access_gentle {β γ : Type} {o : Queue V → Option γ} {f : Queue V → γ → Queue V × β}
    (h : ∀ q r, o q = some r → Gentle q (f q r).1) :
    Steps Gentle (Prog.atomic fun q => (o q).map (f q)) := by
  refine Steps.atomic fun q q' b hf => ?_
  obtain ⟨r, hr, heq⟩ := Option.map_eq_some_iff.mp hf
  have hgentle := h q r hr
  rwa [heq] at hgentle

theorem readField_gentle {β : Type} (n : Addr) (field : RefcntNode Addr → β) :
    Steps (σ := Queue V) Gentle (readField n field) :=
  access_gentle fun q _ _ => Gentle.refl q

theorem updateCount_gentle (n : Addr) (f : UInt32 → UInt32) :
    Steps (σ := Queue V) Gentle (updateCount n f) :=
  access_gentle fun _ _ hnd => gentle_put hnd rfl

theorem casUpdating_gentle (n : Addr) (old new : Bool) :
    Steps (σ := Queue V) Gentle (casUpdating n old new) := by
  refine access_gentle fun q nd hnd => ?_
  split
  · exact gentle_put hnd rfl
  · exact Gentle.refl q

theorem readLink_gentle (a : Addr × Dir) : Steps (σ := Queue V) Gentle (readLink a) :=
  access_gentle fun q _ _ => Gentle.refl q

theorem casLink_gentle (a : Addr × Dir) (old new : Ref) :
    Steps (σ := Queue V) Gentle (casLink a old new) := by
  refine access_gentle fun q r _ => ?_
  split
  · exact { Gentle.refl q with }
  · exact Gentle.refl q

theorem readNode_gentle (e : Addr) : Steps (σ := Queue V) Gentle (readNode e) :=
  access_gentle fun q _ _ => Gentle.refl q

theorem readValue_gentle (e : Addr) : Steps (σ := Queue V) Gentle (readValue e) :=
  access_gentle fun q _ _ => Gentle.refl q

theorem readEnd_gentle (d : Dir) : Steps (σ := Queue V) Gentle (readEnd d) := by
  cases d <;>
  · refine Steps.atomic fun q q' b hf => ?_
    cases hf
    exact Gentle.refl q

theorem incrementLength_gentle : Steps (σ := Queue V) Gentle incrementLength := by
  refine Steps.atomic fun q q' b hf => ?_
  cases hf
  exact { Gentle.refl q with }

theorem decrementLength_gentle (d : Dir) : Steps (σ := Queue V) Gentle (decrementLength d) := by
  refine Steps.atomic fun q q' b hf => ?_
  cases hf
  exact { Gentle.refl q with }

theorem claim_gentle (d : Dir) (e : Addr) (link : Ref) :
    Steps (σ := Queue V) Gentle (claim d e link) := by
  refine access_gentle fun q r _ => ?_
  split
  · exact { Gentle.refl q with }
  · exact Gentle.refl q

theorem getNodePtr_gentle (node : Option Addr) : Steps (σ := Queue V) Gentle (getNodePtr node) := by
  cases node with
  | none => exact Steps.pure none
  | some n => exact (readField_gentle n _).bind fun _ => Steps.pure _

theorem derefNode_gentle (n : Addr) : Steps (σ := Queue V) Gentle (derefNode n) := by
  have htake : Steps (σ := Queue V) Gentle (do
      updateCount n (· + 1)
      pure (some n)) := (updateCount_gentle n _).bind fun _ => Steps.pure _
  refine (readField_gentle n _).bind fun updating => ?_
  split
  · refine (readField_gentle n _).bind fun count => ?_
    split
    · exact Steps.pure none
    · exact htake
  · exact htake

theorem retain_gentle (n : Addr) : Steps (σ := Queue V) Gentle (retain n) :=
  (derefNode_gentle n).bind fun _ => Steps.pure ()

theorem derefLinkInternal_gentle (a : Addr × Dir) (skip : Bool) :
    Steps (σ := Queue V) Gentle (derefLinkInternal a skip) := by
  refine (readLink_gentle a).bind fun r => ?_
  split
  · exact Steps.pure none
  · split
    · exact Steps.pure none
    · exact derefNode_gentle _

theorem exchangeLink_gentle (a : Addr × Dir) (new : Ref) (rounds : ℕ) :
    Steps (σ := Queue V) Gentle (exchangeLink a new rounds) := by
  induction rounds with
  | zero => exact Steps.stop
  | succ rounds ih =>
      refine (readLink_gentle a).bind fun old => (casLink_gentle a old new).bind fun won => ?_
      split
      · exact Steps.pure old
      · exact ih

theorem markPrev_gentle (e : Addr) (rounds : ℕ) :
    Steps (σ := Queue V) Gentle (markPrev e rounds) := by
  induction rounds with
  | zero => exact Steps.stop
  | succ rounds ih =>
      refine (readLink_gentle _).bind fun link => ?_
      split
      · exact ih
      · refine (casLink_gentle _ _ _).bind fun won => ?_
        split
        · exact Steps.pure ()
        · exact ih

theorem markNext_gentle (e : Addr) (rounds : ℕ) :
    Steps (σ := Queue V) Gentle (markNext e rounds) := by
  induction rounds with
  | zero => exact Steps.stop
  | succ rounds ih =>
      refine (readLink_gentle _).bind fun link => (casLink_gentle _ _ _).bind fun won => ?_
      split
      · exact Steps.pure ()
      · exact ih

theorem queueReusableEntry_gentle (e : Addr) : Steps (σ := Queue V) Gentle
    (Prog.atomic fun q => (queueReusableEntry e q).map fun q => (q, ())) := by
  refine Steps.atomic fun q q' b hf => ?_
  obtain ⟨q₁, hq₁, heq⟩ := Option.map_eq_some_iff.mp hf
  cases heq
  obtain ⟨entries, hfree, heq⟩ := Option.map_eq_some_iff.mp hq₁
  obtain ⟨ent, -, hkill⟩ := Option.map_eq_some_iff.mp hfree
  subst heq hkill
  exact { Gentle.refl q with brk := rfl }

theorem placed_of_gentle {α : Type} {p : Prog (Queue V) α} (h : Steps Gentle p) :
    Maintains Placed p :=
  h.maintains fun _ _ hg hq => hq.gentle hg

theorem nodesKept_of_gentle {α : Type} {out : Option Addr} {p : Prog (Queue V) α}
    (h : Steps Gentle p) : Maintains (NodesKept out) p :=
  h.maintains fun _ _ hg hq => hq.gentle hg

/-! ## Collection -/

theorem recycleNode_ends (n : Addr) :
    Ends (NodesKept (V := V) (some n)) (recycleNode n) fun _ => NodesKept none := by
  refine Ends.atomic fun q q' _ hq hf => ?_
  split at hf
  · cases hf
    refine { hq with kept := ?_ }
    intro m md hm hterm
    rcases hq.kept m md hm hterm with hfree | hpool | hout
    · exact Or.inl hfree
    · exact Or.inr (Or.inl (List.mem_append_left _ hpool))
    · cases hout
      exact Or.inr (Or.inl (List.mem_append_right _ List.mem_cons_self))
  · obtain ⟨nodes, hfree, heq⟩ := Option.map_eq_some_iff.mp hf
    obtain ⟨nd, -, hkill⟩ := Option.map_eq_some_iff.mp hfree
    cases heq
    subst hkill
    have hlive : ∀ m md, (q.nodes.kill n) m = some md → m ≠ n ∧ q.nodes m = some md := by
      intro m md hm
      by_cases heq : m = n
      · rw [Heap.kill_apply, if_pos heq] at hm
        cases hm
      · exact ⟨heq, (if_neg heq).symm.trans ((Heap.kill_apply ..).symm.trans hm)⟩
    refine {
      threshold := hq.threshold, terminated_lt := hq.terminated_lt
      ptr_lt := fun m md hm => hq.ptr_lt m md (hlive m md hm).2
      ptr_inj := fun m m' md md' hm hm' =>
        hq.ptr_inj m m' md md' (hlive m md hm).2 (hlive m' md' hm').2
      kept := ?_ }
    intro m md hm hterm
    obtain ⟨hne, hm⟩ := hlive m md hm
    rcases hq.kept m md hm hterm with hfree | hpool | hout
    · exact Or.inl hfree
    · exact Or.inr (Or.inl hpool)
    · exact absurd (Option.some.inj hout) hne

theorem readFreeList_ends : Ends (NodesKept (V := V) none) readFreeList fun node q =>
    NodesKept node q ∧ (node = none → q.freeList = []) := by
  refine Ends.atomic fun q q' node hq hf => ?_
  cases hf
  refine ⟨{ hq with kept := ?_ }, fun hnone => ?_⟩
  · intro m md hm hterm
    rcases hq.kept m md hm hterm with hfree | hpool | hout
    · show m ∈ q.freeList.tail ∨ m ∈ q.nodePool ∨ some m = q.freeList.head?
      cases hlist : q.freeList with
      | nil =>
          rw [hlist] at hfree
          cases hfree
      | cons n rest =>
          rw [hlist] at hfree
          rcases List.mem_cons.mp hfree with rfl | hrest
          · exact Or.inr (Or.inr rfl)
          · exact Or.inl hrest
    · exact Or.inr (Or.inl hpool)
    · cases hout
  · show q.freeList.tail = []
    rw [List.head?_eq_none_iff.mp hnone, List.tail_nil]

theorem freeCount_ends {P : Queue V → Prop} : Ends P freeCount fun c q =>
    P q ∧ c = (q.freeList.length, q.gcThreshold) := by
  refine Ends.atomic fun q q' c hq hf => ?_
  cases hf
  exact ⟨hq, rfl⟩

theorem gcLoop_ends (limit rounds : ℕ) :
    Ends (NodesKept (V := V) none) (gcLoop queueReusableEntry limit rounds) fun _ q =>
      NodesKept none q ∧ q.freeList.length ≤ limit := by
  induction rounds with
  | zero => exact Ends.stop
  | succ rounds ih =>
      refine freeCount_ends.bind fun c => ?_
      split
      · refine (readFreeList_ends.weaken (fun _ h => h.1) fun _ _ h => h).bind fun node => ?_
        cases node with
        | none =>
            refine Ends.pure fun q hq => ⟨hq.1, ?_⟩
            rw [hq.2 rfl]
            exact Nat.zero_le _
        | some n =>
            refine ((nodesKept_of_gentle (readField_gentle n _)).weaken (fun _ h => h.1)
              fun _ _ h => h).bind fun ptr => ?_
            refine (nodesKept_of_gentle (queueReusableEntry_gentle ptr)).bind fun _ => ?_
            exact (recycleNode_ends n).bind fun _ => ih
      · next hle =>
          refine Ends.pure fun q hq => ⟨hq.1, ?_⟩
          rw [hq.2] at hle
          exact Nat.not_lt.mp hle

theorem gcIfDue_ends (bound : ℕ) :
    Ends (NodesKept (V := V) none) (gcIfDue bound queueReusableEntry) fun _ => Placed := by
  refine freeCount_ends.bind fun c => ?_
  split
  · intro q q' u hq hrun
    obtain ⟨hkept, hlen⟩ := gcLoop_ends _ bound q q' u hq.1 hrun
    refine ⟨hkept, Nat.le_trans hlen ?_⟩
    rw [hq.2, hq.1.threshold]
    exact Nat.div_le_self (2 ^ 10) 2
  · next hle =>
      refine Ends.pure fun q hq => ⟨hq.1, ?_⟩
      rw [hq.2, hq.1.threshold] at hle
      exact Nat.not_lt.mp hle

theorem terminateNode_ends (n : Addr) :
    Ends (Placed (V := V)) (terminateNode n) fun _ => NodesKept none := by
  rintro q q' u ⟨hq, hlen⟩ hrun
  rw [terminateNode, run_atomic] at hrun
  obtain ⟨nd, hnd, heq⟩ := Option.map_eq_some_iff.mp hrun
  have hroom : q.freeList.length < freeListSize q.gcThreshold := by
    rw [hq.threshold]
    exact Nat.lt_of_le_of_lt hlen (lt_freeListSize (by decide))
  rw [if_pos hroom] at heq
  cases heq
  refine { hq with terminated_lt := ?_, kept := ?_ }
  · intro e he
    rcases List.mem_append.mp he with hold | hnew
    · exact hq.terminated_lt e hold
    · rw [List.mem_singleton.mp hnew]
      exact hq.ptr_lt n nd hnd
  · intro m md hm hterm
    rcases List.mem_append.mp hterm with hold | hnew
    · rcases hq.kept m md hm hold with hfree | hpool | hout
      · exact Or.inl (List.mem_append_left _ hfree)
      · exact Or.inr (Or.inl hpool)
      · cases hout
    · rw [hq.ptr_inj m n md nd hm hnd (List.mem_singleton.mp hnew)]
      exact Or.inl (List.mem_append_right _ List.mem_cons_self)

theorem release_placed (bound : ℕ) (n : Addr) :
    Maintains (Placed (V := V)) (release bound n) := by
  have hflagged : Ends (Placed (V := V)) (releaseFlagged n) fun _ => NodesKept none := by
    refine (placed_of_gentle (readField_gentle n _)).bind fun count => ?_
    split
    · exact terminateNode_ends n
    · refine (placed_of_gentle (casUpdating_gentle n _ _)).bind fun _ => ?_
      exact Ends.pure fun q hq => hq.1
  have hrest : Maintains (Placed (V := V)) (do
      if ← casUpdating n false true then
        releaseFlagged n
      gcIfDue bound queueReusableEntry) := by
    refine (placed_of_gentle (casUpdating_gentle n _ _)).bind fun won => ?_
    cases won with
    | false => exact (gcIfDue_ends bound).weaken (fun _ h => h.1) fun _ _ h => h
    | true => exact hflagged.bind fun _ => gcIfDue_ends bound
  refine (placed_of_gentle (readField_gentle n _)).bind fun count => ?_
  split
  · exact (placed_of_gentle (updateCount_gentle n _)).bind fun _ => hrest
  · exact hrest

/-! ## The operations -/

theorem allocEntry_placed (value : Option V) : Maintains Placed (allocEntry value) := by
  rintro q q' e ⟨hq, hlen⟩ hrun
  have hnew : ∀ n nd, q.nodes n = some nd → nd.ptr ≠ q.ext.entries.brk :=
    fun n nd hn heq => absurd (hq.ptr_lt n nd hn) (heq ▸ Nat.lt_irrefl _)
  -- The heap of nodes afterwards has one node that is new, or used again, and the old ones.
  have hcreate : ∀ (nodes : Heap (RefcntNode Addr)) (n : Addr) (pool : List Addr),
      (∀ m md, nodes m = some md → m = n ∧ md.ptr = q.ext.entries.brk ∨
        m ≠ n ∧ q.nodes m = some md) →
      (∀ m ∈ q.nodePool, m = n ∨ m ∈ pool) → ∀ entries : Heap (QueueEntry V),
      entries.brk = q.ext.entries.brk + 1 → ∀ links,
      Placed { q with nodes := nodes, nodePool := pool, links := links,
                      ext := { q.ext with entries := entries } } := by
    intro nodes n pool hnodes hpool entries hbrk links
    refine ⟨{ threshold := hq.threshold, ptr_lt := ?_, ptr_inj := ?_, terminated_lt := ?_,
              kept := ?_ }, hlen⟩
    · intro m md hm
      show md.ptr < entries.brk
      rw [hbrk]
      rcases hnodes m md hm with ⟨-, hptr⟩ | ⟨-, hm⟩
      · exact hptr ▸ Nat.lt_succ_self _
      · exact Nat.lt_succ_of_lt (hq.ptr_lt m md hm)
    · intro m m' md md' hm hm' heq
      rcases hnodes m md hm with ⟨rfl, hptr⟩ | ⟨-, hold⟩
      · rcases hnodes m' md' hm' with ⟨rfl, -⟩ | ⟨-, hold'⟩
        · rfl
        · exact absurd (heq ▸ hptr) (hnew m' md' hold')
      · rcases hnodes m' md' hm' with ⟨-, hptr'⟩ | ⟨-, hold'⟩
        · exact absurd (heq.trans hptr') (hnew m md hold)
        · exact hq.ptr_inj m m' md md' hold hold' heq
    · intro x hx
      show x < entries.brk
      rw [hbrk]
      exact Nat.lt_succ_of_lt (hq.terminated_lt x hx)
    · intro m md hm hterm
      rcases hnodes m md hm with ⟨-, hptr⟩ | ⟨hne, hold⟩
      · exact absurd (hq.terminated_lt _ hterm) (hptr ▸ Nat.lt_irrefl _)
      · rcases hq.kept m md hold hterm with hfree | hin | hout
        · exact Or.inl hfree
        · exact Or.inr (Or.inl ((hpool m hin).resolve_left hne))
        · cases hout
  rw [allocEntry, run_atomic] at hrun
  cases hpool : q.nodePool with
  | nil =>
      simp only [newNode, run_atomic, hpool] at hrun
      cases hrun
      refine hcreate _ q.nodes.brk _ ?_ (by simp [hpool]) _ rfl _
      intro m md hm
      by_cases heq : m = q.nodes.brk
      · rw [Heap.alloc_apply, if_pos heq] at hm
        cases hm
        exact Or.inl ⟨heq, rfl⟩
      · exact Or.inr ⟨heq, (if_neg heq).symm.trans ((Heap.alloc_apply ..).symm.trans hm)⟩
  | cons n pool =>
      simp only [newNode, run_atomic, hpool] at hrun
      cases hnd : q.nodes n with
      | none =>
          rw [hnd] at hrun
          cases hrun
      | some nd =>
          rw [hnd] at hrun
          cases hrun
          refine hcreate _ n pool ?_ (by simp [hpool]) _ rfl _
          intro m md hm
          by_cases heq : m = n
          · subst heq
            cases (Heap.put_self hnd).symm.trans hm
            exact Or.inl ⟨rfl, rfl⟩
          · exact Or.inr ⟨heq, (Heap.put_of_ne heq).symm.trans hm⟩

section Operations

variable (bound : ℕ)

theorem store_placed (a : Addr × Dir) (ref : Option Addr) :
    Maintains (Placed (V := V)) (store bound a ref) := by
  have hold : ∀ old : Ref, Maintains (Placed (V := V))
      (if old = null then Pure.pure () else releaseOld bound queueReusableEntry old) := by
    intro old
    split
    · exact Maintains.pure ()
    · rw [releaseOld]
      split
      · exact Ends.stop
      · exact release_placed bound _
  refine (placed_of_gentle (exchangeLink_gentle a _ bound)).bind fun old => ?_
  cases ref with
  | none => exact hold old
  | some n => exact (placed_of_gentle (derefNode_gentle n)).bind fun _ => hold old

theorem releaseEntry_placed (e : Addr) :
    Maintains (Placed (V := V)) (do release bound (← readNode e)) :=
  (placed_of_gentle (readNode_gentle e)).bind fun n => release_placed bound n

theorem releaseEntry_then {α : Type} (e : Addr) {k : Unit → Prog (Queue V) α}
    (hk : ∀ u, Maintains Placed (k u)) :
    Maintains Placed (readNode e >>= fun n => release bound n >>= k) :=
  (placed_of_gentle (readNode_gentle e)).bind fun n => (release_placed bound n).bind hk

theorem retainEntry_then {α : Type} (e : Addr) {k : Unit → Prog (Queue V) α}
    (hk : ∀ u, Maintains Placed (k u)) :
    Maintains Placed (readNode e >>= fun n => retain n >>= k) :=
  (placed_of_gentle (readNode_gentle e)).bind fun n =>
    (placed_of_gentle (retain_gentle n)).bind hk

theorem storeEntry_then {α : Type} (a : Addr × Dir) (e : Addr) {k : Unit → Prog (Queue V) α}
    (hk : ∀ u, Maintains Placed (k u)) :
    Maintains Placed (readNode e >>= fun n => store bound a (some n) >>= k) :=
  (placed_of_gentle (readNode_gentle e)).bind fun _ => (store_placed bound _ _).bind hk

/-- Exchange the node of one entry for that of another one in a cell, and go on. -/
theorem casEntry_then {α : Type} (a : Addr × Dir) (e e' : Addr) {k : Bool → Prog (Queue V) α}
    (hk : ∀ won, Maintains Placed (k won)) :
    Maintains Placed (readNode e >>= fun expected => readNode e' >>= fun new =>
      casLink a (refTo expected) (refTo new) >>= k) :=
  (placed_of_gentle (readNode_gentle e)).bind fun _ =>
    (placed_of_gentle (readNode_gentle e')).bind fun _ =>
      (placed_of_gentle (casLink_gentle _ _ _)).bind hk

/-- Go on with the entry that a link leads to. -/
theorem neighbour_then {α : Type} (a : Addr × Dir) (skip : Bool)
    {k : Option Addr → Prog (Queue V) α} (hk : ∀ found, Maintains Placed (k found)) :
    Maintains Placed (derefLinkInternal a skip >>= fun node => getNodePtr node >>= k) :=
  (placed_of_gentle (derefLinkInternal_gentle a skip)).bind fun node =>
    (placed_of_gentle (getNodePtr_gentle node)).bind hk

theorem queueInit_placed : Maintains (Placed (V := V)) (queueInit bound) := by
  refine (allocEntry_placed none).bind fun head => (allocEntry_placed none).bind fun tail => ?_
  refine (placed_of_gentle (Steps.atomic fun q q' b hf => ?_)).bind fun _ => ?_
  · cases hf
    exact { Gentle.refl q with }
  refine storeEntry_then bound _ tail fun _ => ?_
  exact (placed_of_gentle (readNode_gentle head)).bind fun m => store_placed bound _ _

theorem linkEnd_placed (d : Dir) (e sentinel : Addr) (rounds : ℕ) :
    ∀ neighbour, Maintains (Placed (V := V)) (linkEnd bound d e sentinel rounds neighbour) := by
  induction rounds with
  | zero => exact fun _ => Ends.stop
  | succ rounds ih =>
      intro neighbour
      refine casEntry_then _ _ _ fun won => ?_
      split
      · exact Maintains.pure neighbour
      refine releaseEntry_then bound _ fun _ => ?_
      refine neighbour_then _ _ fun found => ?_
      cases found with
      | none => exact Ends.stop
      | some neighbour' =>
          exact storeEntry_then bound _ _ fun _ => ih neighbour'

theorem pushLoop_placed (d : Dir) (e sentinel : Addr) (rounds : ℕ) :
    Maintains (Placed (V := V)) (pushLoop bound d e sentinel rounds) := by
  induction rounds with
  | zero => exact Ends.stop
  | succ rounds ih =>
      refine neighbour_then _ _ fun found => ?_
      cases found with
      | none => exact ih
      | some neighbour =>
          refine storeEntry_then bound _ _ fun _ => ?_
          refine storeEntry_then bound _ _ fun _ => ?_
          refine (placed_of_gentle (readLink_gentle _)).bind fun expected => ?_
          refine (placed_of_gentle (readNode_gentle _)).bind fun new => ?_
          refine (placed_of_gentle (casLink_gentle _ _ _)).bind fun won => ?_
          split
          · refine releaseEntry_then bound _ fun _ => ?_
            refine retainEntry_then _ fun _ => ?_
            refine (linkEnd_placed bound d e sentinel bound neighbour).bind fun last => ?_
            refine releaseEntry_then bound _ fun _ => ?_
            refine retainEntry_then _ fun _ => ?_
            exact releaseEntry_placed bound _
          · refine releaseEntry_then bound _ fun _ => ?_
            exact (store_placed bound _ _).bind fun _ => (store_placed bound _ _).bind fun _ => ih

theorem push_placed (d : Dir) (value : V) : Maintains Placed (push bound d value) := by
  refine (allocEntry_placed _).bind fun e => ?_
  refine (placed_of_gentle (readEnd_gentle d)).bind fun sentinel => ?_
  refine (pushLoop_placed bound d e sentinel bound).bind fun _ => ?_
  exact placed_of_gentle incrementLength_gentle

theorem bypass_placed (d : Dir) (e sentinel : Addr) (rounds : ℕ) :
    ∀ previous, Maintains (Placed (V := V)) (bypass bound d e sentinel rounds previous) := by
  induction rounds with
  | zero => exact fun _ => Ends.stop
  | succ rounds ih =>
      have htry : ∀ neighbour, Maintains (Placed (V := V)) (do
          let expected ← readNode e
          let new ← readNode sentinel
          if ← casLink (neighbour, back d) (refTo expected) (refTo new) then
            Pure.pure neighbour
          else
            bypass bound d e sentinel rounds (some neighbour)) := by
        refine fun neighbour => casEntry_then _ _ _ fun won => ?_
        split
        · exact Maintains.pure neighbour
        · exact ih (some neighbour)
      have hfresh : Maintains (Placed (V := V)) (bypass bound d e sentinel (rounds + 1) none) := by
        refine neighbour_then _ _ fun found => ?_
        cases found with
        | none => exact ih none
        | some neighbour => exact htry neighbour
      intro previous
      cases previous with
      | none => exact hfresh
      | some previous => exact releaseEntry_then bound previous fun _ => hfresh

theorem unlink_placed (d : Dir) {markRest : Addr → ℕ → Prog (Queue V) Unit}
    (hmark : ∀ e rounds, Steps Gentle (markRest e rounds)) (e sentinel : Addr) :
    Maintains Placed (unlink bound d markRest e sentinel) := by
  refine (placed_of_gentle (hmark e bound)).bind fun _ => ?_
  refine (bypass_placed bound d e sentinel bound none).bind fun neighbour => ?_
  refine releaseEntry_then bound _ fun _ => ?_
  refine retainEntry_then _ fun _ => ?_
  have hrest : Maintains (Placed (V := V)) (do
      release bound (← readNode neighbour)
      let value ← readValue e
      release bound (← readNode e)
      Pure.pure value) := by
    refine releaseEntry_then bound _ fun _ => ?_
    refine (placed_of_gentle (readValue_gentle e)).bind fun value => ?_
    exact releaseEntry_then bound _ fun _ => Maintains.pure value
  refine casEntry_then _ _ _ fun won => ?_
  cases won with
  | false => exact hrest
  | true =>
      refine releaseEntry_then bound _ fun _ => ?_
      exact retainEntry_then _ fun _ => hrest

theorem popLoop_placed (d : Dir) {markRest : Addr → ℕ → Prog (Queue V) Unit}
    (hmark : ∀ e rounds, Steps Gentle (markRest e rounds)) (sentinel : Addr) (rounds : ℕ) :
    Maintains Placed (popLoop bound d markRest sentinel rounds) := by
  induction rounds with
  | zero => exact Ends.stop
  | succ rounds ih =>
      have hagain : ∀ e, Maintains (Placed (V := V)) (do
          release bound (← readNode e)
          popLoop bound d markRest sentinel rounds) :=
        fun e => releaseEntry_then bound e fun _ => ih
      refine (placed_of_gentle (derefLinkInternal_gentle _ _)).bind fun entryNode => ?_
      refine (placed_of_gentle (getNodePtr_gentle entryNode)).bind fun found => ?_
      cases found with
      | none => exact Maintains.pure none
      | some e =>
          refine (placed_of_gentle (readEnd_gentle _)).bind fun last => ?_
          split
          · cases entryNode with
            | none => exact Maintains.pure none
            | some n => exact (release_placed bound n).bind fun _ => Maintains.pure none
          refine (placed_of_gentle (readLink_gentle _)).bind fun r => ?_
          refine (placed_of_gentle (readNode_gentle _)).bind fun node => ?_
          split
          · exact hagain e
          refine (placed_of_gentle (readLink_gentle _)).bind fun link => ?_
          split
          · exact hagain e
          refine (placed_of_gentle (claim_gentle _ _ _)).bind fun won => ?_
          split
          · exact (unlink_placed bound d hmark e sentinel).bind fun value => Maintains.pure _
          · exact hagain e

theorem pop_placed (d : Dir) {markRest : Addr → ℕ → Prog (Queue V) Unit}
    (hmark : ∀ e rounds, Steps Gentle (markRest e rounds)) :
    Maintains Placed (pop bound d markRest) := by
  refine (placed_of_gentle (readEnd_gentle d)).bind fun sentinel => ?_
  refine (popLoop_placed bound d hmark sentinel bound).bind fun found => ?_
  cases found with
  | none => exact Maintains.pure none
  | some p =>
      refine (placed_of_gentle (decrementLength_gentle d)).bind fun _ => ?_
      refine (store_placed bound _ _).bind fun _ => (store_placed bound _ _).bind fun _ => ?_
      exact releaseEntry_then bound _ fun _ => Maintains.pure _

end Operations

end Queue
end LibHL
