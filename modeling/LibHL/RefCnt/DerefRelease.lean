import LibHL.RefCnt.Model

/-!
# A reference taken while the last one is given back

One thread takes a reference through a cell, the other clears the cell and gives back
the reference that it stood for.  The first thread tests the flag of the node and
increments its count in separate steps; in between the other one can find the count zero
and terminate the node.  In every run in which this does not happen, a node that
`deref_link` has returned is neither on the free list nor freed.
-/

namespace LibHL
namespace RefCnt

variable {A P : Type} [DecidableEq A]

/-- What `deref_link` has returned, if it has, and the pointers given to
`free_node_ptr_cb`. -/
structure Watch (P : Type) where
  returned : Option (Option Addr)
  freed : List P
deriving DecidableEq

/-- The callback `free_node_ptr_cb`. -/
def logFreed (ptr : P) (s : RefCnt A P (Watch P)) : Option (RefCnt A P (Watch P)) :=
  some { s with ext := { s.ext with freed := s.ext.freed ++ [ptr] } }

/-- Take note of the result of `deref_link`. -/
def logReturned (o : Option Addr) : Prog (RefCnt A P (Watch P)) Unit :=
  .atomic fun s => some ({ s with ext := { s.ext with returned := some o } }, ())

/-- The two threads. -/
inductive Thread where
  | deref
  | release
deriving DecidableEq

/-- What the threads do: one calls `deref_link`, the other clears the cell and calls
`release_ref`. -/
def threads (bound : ℕ) (a : A) (n : Addr) : Thread → Prog (RefCnt A P (Watch P)) Unit
  | .deref => do
      let o ← derefLink a
      logReturned o
  | .release => do
      let _ ← casLink a (refTo n) null
      releaseRef bound logFreed n

/-- The number of steps that the second thread has taken before each step of the first
one. -/
def leads : ℕ → List Thread → List ℕ
  | _, [] => []
  | k, .deref :: schedule => k :: leads k schedule
  | k, .release :: schedule => leads (k + 1) schedule

/-- The first thread reads the cell before it is cleared, and the flag of the node before
it is set, but increments the count only after it has been read for the second time. -/
def Overtakes : List ℕ → Prop
  | l₁ :: l₂ :: l₃ :: _ => l₁ < 1 ∧ l₂ < 4 ∧ 5 ≤ l₃
  | _ => False

instance : ∀ ls : List ℕ, Decidable (Overtakes ls)
  | _ :: _ :: _ :: _ => inferInstanceAs (Decidable (_ ∧ _))
  | [_, _] => isFalse id
  | [_] => isFalse id
  | [] => isFalse id

/-- The node is not on the free list, and its pointer has not been freed. -/
structure Safe (n : Addr) (p : P) (s : RefCnt A P (Watch P)) : Prop where
  notMem : n ∉ s.freeList
  others : ∀ m ∈ s.freeList, ∀ nd, s.nodes m = some nd → nd.ptr ≠ p
  unfreed : p ∉ s.ext.freed

section Stages

variable (bound : ℕ) (a : A) (n : Addr) (p : P)

/-! ## The releasing thread -/

/-- What the releasing thread has left to do after each of its first four steps. -/
def remaining : ℕ → Prog (RefCnt A P (Watch P)) Unit
  | 0 => threads bound a n .release
  | 1 => releaseRef bound logFreed n
  | 2 => do
      updateCount n (· - 1)
      if ← casUpdating n false true then
        releaseFlagged n
      gcIfDue bound logFreed
  | 3 => do
      if ← casUpdating n false true then
        releaseFlagged n
      gcIfDue bound logFreed
  | _ => do
      releaseFlagged n
      gcIfDue bound logFreed

/-- The count of the node after steps of the releasing thread, and after the first
thread has taken its reference or not. -/
def tally (k : ℕ) (taken : Bool) : UInt32 :=
  (if k < 3 then 1 else 0) + if taken then 1 else 0

/-- The releasing thread has not yet read the count for the second time. -/
structure Early (taken : Bool) (k : ℕ) (q : Prog (RefCnt A P (Watch P)) Unit)
    (s : RefCnt A P (Watch P)) : Prop extends Safe n p s where
  le_four : k ≤ 4
  prog : q = remaining bound a n k
  node : s.nodes n = some ⟨p, tally k taken, k == 4⟩
  link : s.links a = some (if k = 0 then refTo n else null)

variable {bound a n p} {taken : Bool} {k : ℕ}
variable {q q' : Prog (RefCnt A P (Watch P)) Unit} {s s' : RefCnt A P (Watch P)}

omit [DecidableEq A] in
theorem Safe.put {nd nd' : RefcntNode P} {m : Addr} (h : Safe n p s) (hm : s.nodes m = some nd)
    (hptr : nd'.ptr = nd.ptr) : Safe n p { s with nodes := s.nodes.put m nd' } where
  notMem := h.notMem
  others := by
    intro m' hm' nd₁ hnd₁
    by_cases heq : m' = m
    · subst heq
      cases (Heap.put_self hm).symm.trans hnd₁
      rw [hptr]
      exact h.others m' hm' nd hm
    · exact h.others m' hm' nd₁ ((Heap.put_of_ne heq).symm.trans hnd₁)
  unfreed := h.unfreed

theorem Early.step (h : Early bound a n p taken k q s) (hk : k < 4) (hstep : q.Takes s q' s') :
    Early bound a n p taken (k + 1) q' s' ∧ s'.ext = s.ext := by
  obtain ⟨hsafe, -, rfl, hnode, hlink⟩ := h
  obtain rfl | rfl | rfl | rfl : k = 0 ∨ k = 1 ∨ k = 2 ∨ k = 3 := by omega
  · -- the cell is cleared
    obtain ⟨b, hf, rfl⟩ := hstep
    simp only [hlink, Option.map_some, if_true, Option.some.injEq, Prod.mk.injEq] at hf
    obtain ⟨rfl, -⟩ := hf
    exact ⟨⟨{ hsafe with }, by omega, rfl, hnode, Function.update_self ..⟩, rfl⟩
  · -- the count is read
    obtain ⟨b, hf, rfl⟩ := hstep
    simp only [hnode, Option.map_some, Option.some.injEq, Prod.mk.injEq] at hf
    obtain ⟨rfl, rfl⟩ := hf
    have hpos : 0 < tally 1 taken := by cases taken <;> decide
    exact ⟨⟨hsafe, by omega, if_pos hpos, hnode, hlink⟩, rfl⟩
  · -- the count is decremented
    obtain ⟨b, hf, rfl⟩ := hstep
    simp only [hnode, Option.map_some, Option.some.injEq, Prod.mk.injEq] at hf
    obtain ⟨rfl, -⟩ := hf
    have hcount : tally 2 taken - 1 = tally 3 taken := by cases taken <;> decide
    refine ⟨⟨hsafe.put hnode rfl, by omega, rfl, ?_, hlink⟩, rfl⟩
    rw [Heap.put_self hnode, hcount]
    rfl
  · -- the flag is set
    obtain ⟨b, hf, rfl⟩ := hstep
    simp [hnode] at hf
    obtain ⟨rfl, rfl⟩ := hf
    have hcount : tally 3 taken = tally 4 taken := by cases taken <;> decide
    refine ⟨⟨hsafe.put hnode rfl, by omega, rfl, ?_, hlink⟩, rfl⟩
    rw [Heap.put_self hnode, hcount]
    rfl

/-! ## A node that is terminated -/

/-- A step that leaves the cells alone, and the node unless its memory is freed. -/
structure Passes (n : Addr) (s s' : RefCnt A P (Watch P)) : Prop where
  links : s'.links = s.links
  returned : s'.ext.returned = s.ext.returned
  node : ∀ nd, s'.nodes n = some nd → s.nodes n = some nd

omit [DecidableEq A] in
theorem Passes.refl (n : Addr) (s : RefCnt A P (Watch P)) : Passes n s s :=
  ⟨rfl, rfl, fun _ h => h⟩

section

open Prog

omit [DecidableEq A]

theorem freeCount_passes (n : Addr) :
    Steps (σ := RefCnt A P (Watch P)) (Passes n) freeCount := by
  refine Steps.atomic fun s s' b hf => ?_
  cases hf
  exact .refl n s

theorem gcLoop_passes (n : Addr) (limit rounds : ℕ) :
    Steps (σ := RefCnt A P (Watch P)) (Passes n) (gcLoop logFreed limit rounds) := by
  induction rounds with
  | zero => exact Steps.stop
  | succ rounds ih =>
      rw [gcLoop]
      refine (freeCount_passes n).bind fun c => ?_
      split
      · refine Steps.bind (Steps.atomic fun s s' b hf => ?_) fun r => ?_
        · cases hf
          exact { Passes.refl n s with }
        cases r with
        | none => exact Steps.pure ()
        | some m =>
            refine Steps.bind (Steps.atomic fun s s' b hf => ?_) fun ptr =>
              Steps.bind (Steps.atomic fun s s' b hf => ?_) fun _ =>
                Steps.bind (Steps.atomic fun s s' b hf => ?_) fun _ => ih
            · obtain ⟨nd, -, heq⟩ := Option.map_eq_some_iff.mp hf
              cases heq
              exact .refl n s
            · cases hf
              exact { Passes.refl n s with }
            · split at hf
              · cases hf
                exact { Passes.refl n s with }
              · obtain ⟨nodes, hfree, heq⟩ := Option.map_eq_some_iff.mp hf
                obtain ⟨nd, -, hkill⟩ := Option.map_eq_some_iff.mp hfree
                cases heq
                subst hkill
                refine ⟨rfl, rfl, ?_⟩
                intro nd' h
                by_cases hnm : n = m
                · simp [Heap.kill_apply, hnm] at h
                · simpa [Heap.kill_apply, hnm] using h
      · exact Steps.pure ()

theorem gcIfDue_passes (bound : ℕ) (n : Addr) :
    Steps (σ := RefCnt A P (Watch P)) (Passes n) (gcIfDue bound logFreed) := by
  refine (freeCount_passes n).bind fun c => ?_
  split
  · exact gcLoop_passes n _ _
  · exact Steps.pure ()

theorem terminateNode_passes (n : Addr) :
    Steps (σ := RefCnt A P (Watch P)) (Passes n) (terminateNode n) := by
  refine Steps.atomic fun s s' b hf => ?_
  obtain ⟨nd, -, heq⟩ := Option.map_eq_some_iff.mp hf
  cases heq
  exact { Passes.refl n s with }

end

variable (a n) in
/-- The releasing thread has read zero: the node is not used any more. -/
structure Doomed (q : Prog (RefCnt A P (Watch P)) Unit) (s : RefCnt A P (Watch P)) : Prop where
  prog : q.Steps (Passes n)
  link : s.links a = some null
  node : ∀ nd, s.nodes n = some nd → nd.updating = true ∧ nd.count = 0

omit [DecidableEq A] in
theorem Doomed.step (h : Doomed a n q s) (hstep : q.Takes s q' s') :
    Doomed a n q' s' ∧ s'.ext.returned = s.ext.returned := by
  obtain ⟨hpasses, hprog⟩ := h.prog.takes hstep
  refine ⟨⟨hprog, ?_, ?_⟩, hpasses.returned⟩
  · rw [hpasses.links]
    exact h.link
  · exact fun nd hnd => h.node nd (hpasses.node nd hnd)

/-! ## A node that is kept -/

variable (n p) in
/-- What the releasing thread relies on and does once it has read a count that is not
zero. -/
def keptSpec : Prog.Spec (RefCnt A P (Watch P)) where
  inv := Safe n p
  rely := fun s s' => s'.freeList = s.freeList ∧ s'.ext.freed = s.ext.freed ∧
    ∀ m nd', s'.nodes m = some nd' → ∃ nd, s.nodes m = some nd ∧ nd.ptr = nd'.ptr
  guar := fun s s' => s'.ext.returned = s.ext.returned
  cond := fun _ _ => True
  rely_refl := fun _ => ⟨rfl, rfl, fun _ nd h => ⟨nd, h, rfl⟩⟩
  rely_trans := by
    rintro s₁ s₂ s₃ ⟨hlist, hfreed, hnode⟩ ⟨hlist', hfreed', hnode'⟩
    refine ⟨hlist'.trans hlist, hfreed'.trans hfreed, ?_⟩
    intro m nd₃ h₃
    obtain ⟨nd₂, h₂, hptr⟩ := hnode' m nd₃ h₃
    obtain ⟨nd₁, h₁, hptr'⟩ := hnode m nd₂ h₂
    exact ⟨nd₁, h₁, hptr'.trans hptr⟩

section

open Prog

omit [DecidableEq A]

theorem freeCount_kept : Triple (keptSpec (A := A) n p) (fun _ => True) freeCount
    (fun _ _ => True) := by
  refine Triple.atomic (fun _ _ _ _ h => h) fun s s' b hinv _ hf _ => ?_
  cases hf
  exact ⟨hinv, rfl, trivial⟩

theorem gcLoop_kept (limit rounds : ℕ) : Triple (keptSpec (A := A) n p) (fun _ => True)
    (gcLoop logFreed limit rounds) (fun _ _ => True) := by
  induction rounds with
  | zero => exact Triple.stop
  | succ rounds ih =>
      rw [gcLoop]
      refine freeCount_kept.bind fun c => ?_
      split
      · let other : Addr → RefCnt A P (Watch P) → Prop := fun m s =>
          ∀ nd, s.nodes m = some nd → nd.ptr ≠ p
        have hread : Triple (keptSpec (A := A) n p) (fun _ => True) readFreeList
            (fun o s => ∀ m, o = some m → other m s) := by
          refine Triple.atomic (fun _ _ _ _ h => h) fun s s' b hinv _ hf _ => ?_
          cases hf
          refine ⟨⟨?_, ?_, hinv.unfreed⟩, rfl, ?_⟩
          · exact fun hm => hinv.notMem (List.mem_of_mem_tail hm)
          · exact fun m hm => hinv.others m (List.mem_of_mem_tail hm)
          · exact fun m hm => hinv.others m (List.mem_of_head? hm)
        refine hread.bind fun o => ?_
        cases o with
        | none => exact Triple.ret fun _ _ => trivial
        | some m =>
            have hstable : Stable (keptSpec (A := A) n p)
                (fun s => ∀ m', some m = some m' → other m' s) := by
              rintro s s' ⟨-, -, hnode⟩ - h m' ⟨⟩ nd' hnd'
              obtain ⟨nd, hnd, hptr⟩ := hnode m nd' hnd'
              rw [← hptr]
              exact h m rfl nd hnd
            have hptr : Triple (keptSpec (A := A) n p)
                (fun s => ∀ m', some m = some m' → other m' s) (readField m RefcntNode.ptr)
                (fun ptr _ => ptr ≠ p) := by
              refine Triple.atomic hstable fun s s' b hinv hm hf _ => ?_
              obtain ⟨nd, hnd, heq⟩ := Option.map_eq_some_iff.mp hf
              cases heq
              exact ⟨hinv, rfl, hm m rfl nd hnd⟩
            refine hptr.bind fun ptr => ?_
            refine Triple.bind (Q := fun _ _ => True) (Triple.atomic (fun _ _ _ _ h => h)
              fun s s' b hinv hne hf _ => ?_) fun _ =>
              Triple.bind (Q := fun _ _ => True) (Triple.atomic (fun _ _ _ _ h => h)
                fun s s' b hinv _ hf _ => ?_) fun _ => ih
            · cases hf
              refine ⟨⟨hinv.notMem, hinv.others, ?_⟩, rfl, trivial⟩
              intro hmem
              rcases List.mem_append.mp hmem with hold | hnew
              · exact hinv.unfreed hold
              · exact hne (List.mem_singleton.mp hnew).symm
            · split at hf
              · cases hf
                exact ⟨{ hinv with }, rfl, trivial⟩
              · obtain ⟨nodes, hfree, heq⟩ := Option.map_eq_some_iff.mp hf
                obtain ⟨nd, -, hkill⟩ := Option.map_eq_some_iff.mp hfree
                cases heq
                subst hkill
                refine ⟨⟨hinv.notMem, ?_, hinv.unfreed⟩, rfl, trivial⟩
                intro m' hm' nd' h
                by_cases heq : m' = m
                · simp [Heap.kill_apply, heq] at h
                · exact hinv.others m' hm' nd' (by simpa [Heap.kill_apply, heq] using h)
      · exact Triple.ret fun _ _ => trivial

theorem gcIfDue_kept (bound : ℕ) : Triple (keptSpec (A := A) n p) (fun _ => True)
    (gcIfDue bound logFreed) (fun _ _ => True) := by
  refine freeCount_kept.bind fun c => ?_
  split
  · exact gcLoop_kept _ _
  · exact Triple.ret fun _ _ => trivial

theorem casUpdating_kept : Triple (keptSpec (A := A) n p) (fun _ => True)
    (casUpdating n true false) (fun _ _ => True) := by
  refine Triple.atomic (fun _ _ _ _ h => h) fun s s' b hinv _ hf _ => ?_
  obtain ⟨nd, hnd, heq⟩ := Option.map_eq_some_iff.mp hf
  split at heq
  · cases heq
    exact ⟨hinv.put hnd rfl, rfl, trivial⟩
  · cases heq
    exact ⟨hinv, rfl, trivial⟩

end

variable (n p) in
/-- The releasing thread has read a count that is not zero. -/
structure Kept (q : Prog (RefCnt A P (Watch P)) Unit) (s : RefCnt A P (Watch P)) : Prop
    extends Safe n p s where
  prog : q.Keeps (keptSpec n p) (fun _ _ => True) s

omit [DecidableEq A] in
theorem Kept.step (h : Kept n p q s) (hstep : q.Takes s q' s') :
    Kept n p q' s' ∧ s'.ext.returned = s.ext.returned := by
  obtain ⟨hinv, hguar, hprog⟩ := h.prog.takes h.toSafe hstep trivial
  exact ⟨⟨hinv, hprog⟩, hguar⟩

/-! ## Both threads -/

theorem remaining_four_takes (h : Early bound a n p taken 4 q s) (hstep : q.Takes s q' s') :
    s' = s ∧ q' = ((if tally 4 taken = 0 then terminateNode n
      else casUpdating n true false >>= fun _ => pure ()) >>= fun _ =>
        gcIfDue bound logFreed) := by
  obtain ⟨-, -, rfl, hnode, -⟩ := h
  obtain ⟨b, hf, rfl⟩ := hstep
  simp only [hnode, Option.map_some, Option.some.injEq, Prod.mk.injEq] at hf
  obtain ⟨rfl, rfl⟩ := hf
  exact ⟨rfl, rfl⟩

variable (bound a n p) in
/-- The releasing thread while the first thread has not taken a reference. -/
def Waiting (k : ℕ) (q : Prog (RefCnt A P (Watch P)) Unit) (s : RefCnt A P (Watch P)) : Prop :=
  Early bound a n p false k q s ∨ 5 ≤ k ∧ Doomed a n q s

variable (bound a n p) in
/-- The releasing thread after the first thread has taken a reference. -/
def Taken (k : ℕ) (q : Prog (RefCnt A P (Watch P)) Unit) (s : RefCnt A P (Watch P)) : Prop :=
  Early bound a n p true k q s ∨ Kept n p q s

theorem Waiting.step (h : Waiting bound a n p k q s) (hstep : q.Takes s q' s') :
    Waiting bound a n p (k + 1) q' s' ∧ s'.ext.returned = s.ext.returned := by
  rcases h with hearly | ⟨hk, hdoomed⟩
  · by_cases hk : k < 4
    · obtain ⟨hnext, hext⟩ := hearly.step hk hstep
      exact ⟨Or.inl hnext, by rw [hext]⟩
    · obtain rfl : k = 4 := by
        have := hearly.le_four
        omega
      obtain ⟨rfl, hprog⟩ := remaining_four_takes hearly hstep
      refine ⟨Or.inr ⟨Nat.le_refl 5, ?_, hearly.link, ?_⟩, rfl⟩
      · rw [hprog, if_pos (by rfl)]
        exact (terminateNode_passes n).bind fun _ => gcIfDue_passes bound n
      · intro nd hnd
        cases hearly.node.symm.trans hnd
        exact ⟨rfl, rfl⟩
  · obtain ⟨hnext, hext⟩ := hdoomed.step hstep
    exact ⟨Or.inr ⟨by omega, hnext⟩, hext⟩

theorem Taken.step (h : Taken bound a n p k q s) (hstep : q.Takes s q' s') :
    Taken bound a n p (k + 1) q' s' ∧ s'.ext.returned = s.ext.returned := by
  rcases h with hearly | hkept
  · by_cases hk : k < 4
    · obtain ⟨hnext, hext⟩ := hearly.step hk hstep
      exact ⟨Or.inl hnext, by rw [hext]⟩
    · obtain rfl : k = 4 := by
        have := hearly.le_four
        omega
      obtain ⟨rfl, hprog⟩ := remaining_four_takes hearly hstep
      refine ⟨Or.inr ⟨hearly.toSafe, ?_⟩, rfl⟩
      rw [hprog, if_neg (by decide)]
      exact ((casUpdating_kept.bind fun _ => Prog.Triple.ret fun _ _ => trivial).bind
        fun _ => gcIfDue_kept bound) s' trivial
  · obtain ⟨hnext, hext⟩ := hkept.step hstep
    exact ⟨Or.inr hnext, hext⟩

/-- What is left of `deref_link` once it has found the flag set. -/
def recount (n : Addr) : Prog (RefCnt A P (Watch P)) Unit := do
  let o ← (do
    if (← readField n RefcntNode.count) = 0 then
      pure none
    else do
      updateCount n (· + 1)
      pure (some n))
  logReturned o

/-- What is left of `deref_link` before it increments the count. -/
def increment (n : Addr) : Prog (RefCnt A P (Watch P)) Unit := do
  updateCount n (· + 1)
  logReturned (some n)

variable (bound a n p) in
/-- Where the first thread is: the steps that it has taken, what it has left to do and what
it knows of the node. -/
inductive Phase (k : ℕ) (q : Prog (RefCnt A P (Watch P)) Unit) (s : RefCnt A P (Watch P)) :
    List ℕ → Prog (RefCnt A P (Watch P)) Unit → Prop where
  | reading (hq : Waiting bound a n p k q s) (hs : s.ext.returned = none) :
      Phase k q s [] (threads bound a n .deref)
  | testing (hq : Waiting bound a n p k q s) (hs : s.ext.returned = none) :
      Phase k q s [0] (derefNode n >>= logReturned)
  | taking (l : ℕ) (hl : l < 4) (hq : Waiting bound a n p k q s)
      (hs : s.ext.returned = none) : Phase k q s [0, l] (increment n)
  | counting (ls : List ℕ) (hk : 4 ≤ k) (hq : Waiting bound a n p k q s)
      (hs : s.ext.returned = none) : Phase k q s ls (recount n)
  | refusing (ls : List ℕ) (hq : Waiting bound a n p k q s) (hs : s.ext.returned = none) :
      Phase k q s ls (logReturned none)
  | refused (ls : List ℕ) (hq : Waiting bound a n p k q s) (hs : s.ext.returned = some none) :
      Phase k q s ls (pure ())
  | returning (ls : List ℕ) (hq : Taken bound a n p k q s) (hs : s.ext.returned = none) :
      Phase k q s ls (logReturned (some n))
  | returned (ls : List ℕ) (hq : Taken bound a n p k q s) : Phase k q s ls (pure ())

variable {ls : List ℕ} {d d' : Prog (RefCnt A P (Watch P)) Unit}

theorem Phase.release (h : Phase bound a n p k q s ls d) (hstep : q.Takes s q' s') :
    Phase bound a n p (k + 1) q' s' ls d := by
  cases h with
  | reading hq hs =>
      obtain ⟨hq', hext⟩ := hq.step hstep
      exact .reading hq' (hext.trans hs)
  | testing hq hs =>
      obtain ⟨hq', hext⟩ := hq.step hstep
      exact .testing hq' (hext.trans hs)
  | taking l hl hq hs =>
      obtain ⟨hq', hext⟩ := hq.step hstep
      exact .taking l hl hq' (hext.trans hs)
  | counting _ hk hq hs =>
      obtain ⟨hq', hext⟩ := hq.step hstep
      exact .counting _ (by omega) hq' (hext.trans hs)
  | refusing _ hq hs =>
      obtain ⟨hq', hext⟩ := hq.step hstep
      exact .refusing _ hq' (hext.trans hs)
  | refused _ hq hs =>
      obtain ⟨hq', hext⟩ := hq.step hstep
      exact .refused _ hq' (hext.trans hs)
  | returning _ hq hs =>
      obtain ⟨hq', hext⟩ := hq.step hstep
      exact .returning _ hq' (hext.trans hs)
  | returned _ hq => exact .returned _ (hq.step hstep).1

theorem Waiting.link (h : Waiting bound a n p k q s) :
    s.links a = some (if k = 0 then refTo n else null) := by
  rcases h with hearly | ⟨hk, hdoomed⟩
  · exact hearly.link
  · rw [hdoomed.link, if_neg (by omega)]

/-- The flag is set from the fourth step on, and then the count is zero. -/
theorem Waiting.node {nd : RefcntNode P} (h : Waiting bound a n p k q s)
    (hnd : s.nodes n = some nd) :
    (nd.updating = true → 4 ≤ k) ∧ (4 ≤ k → nd.updating = true ∧ nd.count = 0) := by
  rcases h with hearly | ⟨hk, hdoomed⟩
  · cases hearly.node.symm.trans hnd
    have hle := hearly.le_four
    refine ⟨fun hu => Nat.le_of_eq (beq_iff_eq.mp hu).symm, fun hk => ?_⟩
    obtain rfl : k = 4 := by omega
    exact ⟨rfl, rfl⟩
  · exact ⟨fun _ => by omega, fun _ => hdoomed.node nd hnd⟩

theorem Waiting.setReturned (h : Waiting bound a n p k q s) (o : Option (Option Addr)) :
    Waiting bound a n p k q { s with ext := { s.ext with returned := o } } := by
  rcases h with hearly | ⟨hk, hdoomed⟩
  · exact Or.inl { hearly with }
  · exact Or.inr ⟨hk, { hdoomed with }⟩

theorem Taken.setReturned (h : Taken bound a n p k q s) (o : Option (Option Addr)) :
    Taken bound a n p k q { s with ext := { s.ext with returned := o } } := by
  rcases h with hearly | hkept
  · exact Or.inl { hearly with }
  · have hsafe : Safe n p { s with ext := { s.ext with returned := o } } := { hkept with }
    refine Or.inr ⟨hsafe, hkept.prog.of_rely (fun _ _ _ _ _ _ => trivial) ?_ hsafe⟩
    exact ⟨rfl, rfl, fun m nd hnd => ⟨nd, hnd, rfl⟩⟩

/-- The count is incremented before it is read for the second time. -/
theorem Waiting.take (h : Waiting bound a n p k q s) (hk : k < 5) {s' : RefCnt A P (Watch P)}
    {b : Unit} (hf : (s.nodes n).map (fun nd =>
      ({ s with nodes := s.nodes.put n { nd with count := nd.count + 1 } }, ())) = some (s', b)) :
    Taken bound a n p k q s' ∧ s'.ext = s.ext := by
  rcases h with hearly | ⟨hge, -⟩
  · have hnode := hearly.node
    rw [hnode] at hf
    cases hf
    have hcount : tally k false + 1 = tally k true := by
      by_cases hlt : k < 3 <;> simp [tally, hlt]
    refine ⟨Or.inl ⟨hearly.toSafe.put hnode rfl, hearly.le_four, hearly.prog, ?_,
      hearly.link⟩, rfl⟩
    rw [Heap.put_self hnode, hcount]
  · omega

theorem Phase.deref (h : Phase bound a n p k q s ls d) (hno : ¬ Overtakes (ls ++ [k]))
    (hstep : d.Takes s d' s') : Phase bound a n p k q s' (ls ++ [k]) d' := by
  cases h with
  | reading hq hs =>
      obtain ⟨r, hf, rfl⟩ := hstep
      obtain ⟨r', ha, heq⟩ := Option.map_eq_some_iff.mp hf
      cases heq
      cases hq.link.symm.trans ha
      by_cases hk : k = 0
      · subst hk
        exact .testing hq hs
      · rw [if_neg hk]
        exact .refusing _ hq hs
  | testing hq hs =>
      obtain ⟨u, hf, rfl⟩ := hstep
      obtain ⟨nd, hnd, heq⟩ := Option.map_eq_some_iff.mp hf
      cases heq
      obtain ⟨hset, hzero⟩ := hq.node hnd
      by_cases hu : nd.updating = true
      · have hrest : Phase bound a n p k q s [0, k] (recount n) := .counting _ (hset hu) hq hs
        rw [hu]
        exact hrest
      · have hk : k < 4 := by
          by_contra hge
          exact hu (hzero (Nat.not_lt.mp hge)).1
        have hrest : Phase bound a n p k q s [0, k] (increment n) := .taking k hk hq hs
        rw [Bool.not_eq_true _ |>.mp hu]
        exact hrest
  | taking l hl hq hs =>
      obtain ⟨b, hf, rfl⟩ := hstep
      have hk : k < 5 := by
        by_contra hge
        exact hno ⟨Nat.zero_lt_one, hl, Nat.not_lt.mp hge⟩
      obtain ⟨htaken, hext⟩ := hq.take hk hf
      exact .returning _ htaken (by rw [hext, hs])
  | counting _ hk hq hs =>
      obtain ⟨b, hf, rfl⟩ := hstep
      obtain ⟨nd, hnd, heq⟩ := Option.map_eq_some_iff.mp hf
      cases heq
      have hzero := ((hq.node hnd).2 hk).2
      rw [hzero]
      exact .refusing _ hq hs
  | refusing _ hq hs =>
      obtain ⟨b, hf, rfl⟩ := hstep
      cases hf
      exact .refused _ (hq.setReturned _) rfl
  | refused _ hq hs => exact hstep.elim
  | returning _ hq hs =>
      obtain ⟨b, hf, rfl⟩ := hstep
      cases hf
      exact .returned _ (hq.setReturned _)
  | returned _ hq => exact hstep.elim

theorem Phase.safe (h : Phase bound a n p k q s ls d)
    (hret : s.ext.returned = some (some n)) : Safe n p s := by
  cases h with
  | returned _ hq =>
      rcases hq with hearly | hkept
      · exact hearly.toSafe
      · exact hkept.toSafe
  | refused _ hq hs => rw [hs] at hret; cases hret
  | reading hq hs => rw [hs] at hret; cases hret
  | testing hq hs => rw [hs] at hret; cases hret
  | taking _ _ hq hs => rw [hs] at hret; cases hret
  | counting _ _ hq hs => rw [hs] at hret; cases hret
  | refusing _ hq hs => rw [hs] at hret; cases hret
  | returning _ hq hs => rw [hs] at hret; cases hret

/-! ## Runs -/

theorem Overtakes.append (h : Overtakes ls) (ls' : List ℕ) : Overtakes (ls ++ ls') := by
  match ls, h with
  | _ :: _ :: _ :: _, h => exact h

theorem phase_of_run : ∀ (schedule : List Thread) (k : ℕ) (ls : List ℕ)
    (c c' : Threads Thread (RefCnt A P (Watch P))) (os : List Unit),
    Phase bound a n p k (c.progs .release) c.state ls (c.progs .deref) →
    ¬ Overtakes (ls ++ leads k schedule) → c.run schedule = some (c', os) →
    ∃ k' ls', Phase bound a n p k' (c'.progs .release) c'.state ls' (c'.progs .deref) := by
  intro schedule
  induction schedule with
  | nil =>
      intro k ls c c' os h _ hrun
      cases hrun
      exact ⟨k, ls, h⟩
  | cons i schedule ih =>
      intro k ls c c' os h hno hrun
      obtain ⟨c₁, o, os', hstep, hrest, -⟩ := runSteps_cons_eq_some hrun
      obtain ⟨htakes, hother⟩ := Threads.takes_of_step hstep
      cases i with
      | deref =>
          have hsplit : ls ++ leads k (.deref :: schedule) = ls ++ [k] ++ leads k schedule := by
            rw [List.append_assoc]
            rfl
          rw [hsplit] at hno
          have hnow : ¬ Overtakes (ls ++ [k]) := fun hover => hno (hover.append _)
          refine ih k (ls ++ [k]) c₁ c' os' ?_ hno hrest
          rw [hother .release (by decide)]
          exact h.deref hnow htakes
      | release =>
          refine ih (k + 1) ls c₁ c' os' ?_ hno hrest
          rw [hother .deref (by decide)]
          exact h.release htakes

/-- The cell refers to a node that has no other reference, and whose pointer is not that
of a node on the free list. -/
structure Linked (a : A) (n : Addr) (p : P) (s : RefCnt A P (Watch P)) : Prop
    extends Safe n p s where
  link : s.links a = some (refTo n)
  node : s.nodes n = some ⟨p, 1, false⟩
  returned : s.ext.returned = none

/-- In every interleaving in which `deref_link` does not overtake `release_ref` in the way
described, a node that it has returned is not on the free list, and its pointer has not
been freed. -/
theorem deref_protects (bound : ℕ) (a : A) (n : Addr) (p : P) (s : RefCnt A P (Watch P))
    (h : Linked a n p s) (schedule : List Thread) (hno : ¬ Overtakes (leads 0 schedule))
    (c : Threads Thread (RefCnt A P (Watch P))) (os : List Unit)
    (hrun : Threads.run ⟨s, threads bound a n⟩ schedule = some (c, os))
    (hret : c.state.ext.returned = some (some n)) :
    n ∉ c.state.freeList ∧ p ∉ c.state.ext.freed := by
  have hearly : Early bound a n p false 0 (threads bound a n .release) s :=
    ⟨h.toSafe, Nat.zero_le 4, rfl, h.node, h.link⟩
  have hphase : Phase bound a n p 0 (threads bound a n .release) s [] (threads bound a n .deref) :=
    .reading (Or.inl hearly) h.returned
  obtain ⟨k, ls, hend⟩ := phase_of_run schedule 0 [] _ c os hphase hno hrun
  have hsafe := hend.safe hret
  exact ⟨hsafe.notMem, hsafe.unfreed⟩

end Stages

/-- A cell that refers to a node with the pointer 7, under a threshold of zero. -/
def oneNode : RefCnt Unit ℕ (Watch ℕ) :=
  { refcntCreate 0 (fun _ => some (refTo 0)) ⟨none, []⟩ with
    nodes := (Heap.empty.alloc ⟨7, 1, false⟩).1 }

theorem oneNode_linked : Linked () 0 7 oneNode where
  notMem := nofun
  others := nofun
  unfreed := nofun
  link := rfl
  node := rfl
  returned := rfl

/-- The count is incremented before it is read for the second time. -/
def inTime : List Thread :=
  [.deref, .deref, .release, .release, .release, .release, .deref, .release, .release, .release,
    .deref]

theorem deref_protects_inTime :
    ∃ c os, Threads.run ⟨oneNode, threads 4 () 0⟩ inTime = some (c, os) ∧
      c.state.ext.returned = some (some 0) ∧ 0 ∉ c.state.freeList ∧ 7 ∉ c.state.ext.freed := by
  have hmap : (Threads.run ⟨oneNode, threads 4 () 0⟩ inTime).map
      (fun r => r.1.state.ext.returned) = some (some (some 0)) := by decide
  obtain ⟨⟨c, os⟩, hrun, hret⟩ := Option.map_eq_some_iff.mp hmap
  exact ⟨c, os, hrun, hret, deref_protects 4 () 0 7 oneNode oneNode_linked inTime (by decide) c os
    hrun hret⟩

/-- The count is incremented after it has been read for the second time. -/
def tooLate : List Thread :=
  [.deref, .deref, .release, .release, .release, .release, .release, .release, .deref, .deref,
    .release, .release, .release, .release, .release]

/-- A node that `deref_link` has returned is put on the free list, and its pointer freed. -/
theorem returned_node_freed :
    (Threads.run ⟨oneNode, threads 4 () 0⟩ (tooLate.take 10)).map
        (fun r => (r.1.state.ext.returned, r.1.state.freeList)) = some (some (some 0), [0]) ∧
      (Threads.run ⟨oneNode, threads 4 () 0⟩ tooLate).map
        (fun r => (r.1.state.ext.returned, r.1.state.ext.freed)) =
          some (some (some 0), [7]) := by
  decide

end RefCnt
end LibHL
