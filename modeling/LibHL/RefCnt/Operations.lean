import LibHL.RefCnt.Model

/-!
# Reference counts in a single thread

What the functions of `refcnt.c` do when they run alone, on nodes whose flag is not
set.
-/

namespace LibHL
namespace RefCnt

variable {A P E : Type} {q : RefCnt A P E} {n : Addr} {nd : RefcntNode P}

@[simp] theorem readLink_run (a : A) :
    (readLink a).run q = (q.links a).map fun r => (q, r) := by
  simp [readLink]

@[simp] theorem readField_run {β : Type} (field : RefcntNode P → β) :
    (readField n field).run q = (q.nodes n).map fun nd => (q, field nd) := by
  simp [readField]

theorem casLink_run [DecidableEq A] {a : A} {old new : Ref} (h : q.links a = some old) :
    (casLink a old new).run q =
      some ({ q with links := Function.update q.links a (some new) }, true) := by
  simp [casLink, h]

/-- The free list has room for one node more than the threshold, unless the size of its
queue overflows an `int`. -/
theorem lt_freeListSize {gcThreshold : ℕ} (h : gcThreshold ≤ 0x55555555) :
    gcThreshold < freeListSize gcThreshold := by
  have hsize : (gcThreshold + gcThreshold / 2) % 2 ^ 32 = gcThreshold + gcThreshold / 2 :=
    Nat.mod_eq_of_lt (by omega)
  simp only [freeListSize, hsize]
  by_cases hlarge : gcThreshold + gcThreshold / 2 < 2 ^ 31 ∧ 2 ^ 8 ≤ gcThreshold + gcThreshold / 2
  · rw [if_pos hlarge]
    omega
  · rw [if_neg hlarge]
    omega

/-- Taking a reference to a node that is not being terminated. -/
theorem derefNode_run (hn : q.nodes n = some nd) (hu : nd.updating = false) :
    (derefNode n).run q =
      some ({ q with nodes := q.nodes.put n { nd with count := nd.count + 1 } }, some n) := by
  simp [derefNode, Prog.run_bind, updateCount, hn, hu]

theorem derefLinkInternal_run {a : A} (skip : Bool) {r : Ref} (ha : q.links a = some r)
    (hm : (r.mark && skip) = false) (hr : r.node = some n) (hn : q.nodes n = some nd)
    (hu : nd.updating = false) :
    (derefLinkInternal a skip).run q =
      some ({ q with nodes := q.nodes.put n { nd with count := nd.count + 1 } }, some n) := by
  simp only [derefLinkInternal, Prog.run_bind, readLink_run, ha, Option.map_some,
    Option.bind_some, hm, Bool.false_eq_true, if_false, hr]
  exact derefNode_run hn hu

/-- The exchange of `store_ref` succeeds in its first round. -/
theorem exchangeLink_run [DecidableEq A] {a : A} {old : Ref} (new : Ref) {bound : ℕ}
    (hb : 0 < bound) (ha : q.links a = some old) :
    (exchangeLink a new bound).run q =
      some ({ q with links := Function.update q.links a (some new) }, old) := by
  obtain ⟨k, rfl⟩ := Nat.exists_eq_succ_of_ne_zero (Nat.ne_of_gt hb)
  simp [exchangeLink, Prog.run_bind, ha, casLink_run ha]

section Release

variable (bound : ℕ) (freePtr : P → RefCnt A P E → Option (RefCnt A P E))

/-- What a round of a collection does with the node it has read. -/
def collect (node : Addr) : Prog (RefCnt A P E) Unit := do
  let ptr ← readField node RefcntNode.ptr
  Prog.atomic fun s => (freePtr ptr s).map fun s => (s, ())
  recycleNode node

/-- A collection keeps what each of its rounds keeps, and leaves no more than the limit if
it has rounds enough. -/
theorem gcLoop_keeps {I : RefCnt A P E → Prop} (limit : ℕ)
    (hround : ∀ q n rest, I q → q.freeList = n :: rest →
      ∃ q', (collect freePtr n).run { q with freeList := rest } = some (q', ()) ∧ I q' ∧
        q'.freeList = rest) :
    ∀ (rounds : ℕ) (q : RefCnt A P E), I q → q.freeList.length ≤ rounds + limit →
      ∃ q', (gcLoop freePtr limit (rounds + 1)).run q = some (q', ()) ∧ I q' ∧
        q'.freeList.length ≤ limit := by
  have hstop : ∀ (rounds : ℕ) (q : RefCnt A P E), I q → q.freeList.length ≤ limit →
      ∃ q', (gcLoop freePtr limit (rounds + 1)).run q = some (q', ()) ∧ I q' ∧
        q'.freeList.length ≤ limit := by
    intro rounds q hq hle
    refine ⟨q, ?_, hq, hle⟩
    simp [gcLoop, freeCount, Prog.run_bind, Nat.not_lt.mpr hle]
  intro rounds
  induction rounds with
  | zero =>
      intro q hq hle
      exact hstop 0 q hq (by omega)
  | succ rounds ih =>
      intro q hq hle
      by_cases hlt : limit < q.freeList.length
      · cases hfree : q.freeList with
        | nil => simp [hfree] at hlt
        | cons n rest =>
            obtain ⟨q₁, hrun₁, hq₁, hrest⟩ := hround q n rest hq hfree
            have hlen : q₁.freeList.length ≤ rounds + limit := by
              rw [hfree, List.length_cons] at hle
              rw [hrest]
              omega
            obtain ⟨q₂, hrun₂, hq₂, hle₂⟩ := ih q₁ hq₁ hlen
            refine ⟨q₂, ?_, hq₂, hle₂⟩
            have hcount : freeCount.run q = some (q, (q.freeList.length, q.gcThreshold)) := by
              simp [freeCount]
            have hread : readFreeList.run q = some ({ q with freeList := rest }, some n) := by
              simp [readFreeList, hfree]
            have hagain := (Prog.run_bind_of_run hrun₁
              (k := fun _ => gcLoop freePtr limit (rounds + 1))).trans hrun₂
            simp only [collect, Prog.bind_assoc] at hagain
            rw [gcLoop, Prog.run_bind_of_run hcount, if_pos hlt, Prog.run_bind_of_run hread]
            exact hagain
      · exact hstop (rounds + 1) q hq (by omega)

theorem gcIfDue_run (h : q.freeList.length ≤ q.gcThreshold) :
    (gcIfDue bound freePtr).run q = some (q, ()) := by
  simp [gcIfDue, freeCount, Prog.run_bind, Nat.not_lt.mpr h]

/-- Giving back a reference that is not the last one. -/
theorem releaseRef_run (hn : q.nodes n = some nd) (hu : nd.updating = false)
    (hc : 1 < nd.count) (hfree : q.freeList.length ≤ q.gcThreshold) :
    (releaseRef bound freePtr n).run q =
      some ({ q with nodes := q.nodes.put n { nd with count := nd.count - 1 } }, ()) := by
  have hpos : 0 < nd.count := by grind
  have hne : nd.count - 1 ≠ 0 := by grind
  have hput : ∀ v, (q.nodes.put n v) n = some v := fun v => Heap.put_self hn
  simp only [releaseRef, Prog.run_bind, readField_run, hn, Option.map_some, Option.bind_some,
    if_pos hpos, updateCount, casUpdating, Prog.run_atomic, hput, hu, if_true, Heap.put_put,
    releaseFlagged, if_neg hne, Prog.run_pure]
  exact gcIfDue_run bound freePtr hfree

/-- Giving back the last reference, up to the collection. -/
theorem releaseRef_run_terminating (hn : q.nodes n = some nd) (hu : nd.updating = false)
    (hc : nd.count = 1) :
    (releaseRef bound freePtr n).run q =
      (gcIfDue bound freePtr).run { q with
        nodes := q.nodes.put n { nd with count := 0, updating := true }
        freeList := if q.freeList.length < freeListSize q.gcThreshold then q.freeList ++ [n]
          else q.freeList
        terminated := q.terminated ++ [nd.ptr] } := by
  have hpos : 0 < nd.count := by grind
  have hzero : nd.count - 1 = 0 := by grind
  have hput : ∀ v, (q.nodes.put n v) n = some v := fun v => Heap.put_self hn
  simp only [releaseRef, Prog.run_bind, readField_run, hn, Option.map_some, Option.bind_some,
    if_pos hpos, updateCount, casUpdating, Prog.run_atomic, hput, hu, if_true, Heap.put_put,
    releaseFlagged, hzero, terminateNode]

theorem releaseRef_run_last (hn : q.nodes n = some nd) (hu : nd.updating = false)
    (hc : nd.count = 1) (hfree : q.freeList.length < freeListSize q.gcThreshold) :
    (releaseRef bound freePtr n).run q =
      (gcIfDue bound freePtr).run { q with
        nodes := q.nodes.put n { nd with count := 0, updating := true }
        freeList := q.freeList ++ [n]
        terminated := q.terminated ++ [nd.ptr] } := by
  rw [releaseRef_run_terminating bound freePtr hn hu hc]
  simp only [if_pos hfree]

end Release

end RefCnt
end LibHL
