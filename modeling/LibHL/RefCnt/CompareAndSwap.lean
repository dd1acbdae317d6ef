import LibHL.RefCnt.Invariant

/-!
# Replacing a reference by a compare and swap

`compare_and_swap_ref` replaces a reference as `store_ref` does, but it adjusts the counts
itself.  So a displaced node that nobody else refers to is not terminated, a count of zero goes
down to the largest one, and a node that was terminated gets a count again.
-/

namespace LibHL
namespace RefCnt

open Session (refcount)

variable {A V : Type} {q q' : Counted A V} {n o r : Addr} {nd : RefcntNode (ℕ × V)}
  {old ref : Option Addr} {a : A} {bound : ℕ}

/-! ## Collections -/

/-- What a collection leaves: nodes may be freed, and nothing else happens to them. -/
structure Swept (q q' : Counted A V) : Prop where
  terminated : q'.terminated = q.terminated
  gcThreshold : q'.gcThreshold = q.gcThreshold
  nodes : ∀ n, q'.nodes n = q.nodes n ∨ q'.nodes n = none

theorem Swept.refl (q : Counted A V) : Swept q q := ⟨rfl, rfl, fun _ => Or.inl rfl⟩

theorem Swept.trans {q'' : Counted A V} (h : Swept q q') (h' : Swept q' q'') : Swept q q'' := by
  refine ⟨h'.terminated.trans h.terminated, h'.gcThreshold.trans h.gcThreshold, fun n => ?_⟩
  rcases h'.nodes n with heq | hnone
  · rw [heq]
    exact h.nodes n
  · exact Or.inr hnone

theorem collect_swept (hrun : (collect freeNodePtr n).run q = some (q', ())) : Swept q q' := by
  rw [collect, Prog.run_bind, readField_run] at hrun
  cases hn : q.nodes n with
  | none => simp [hn] at hrun
  | some nd =>
      simp only [hn, Option.map_some, Option.bind_some, Prog.run_bind, Prog.run_atomic,
        freeNodePtr, recycleNode] at hrun
      split at hrun
      · cases hrun
        exact ⟨rfl, rfl, fun m => Or.inl rfl⟩
      · simp only [Heap.free_eq_some hn, Option.map_some, Option.some.injEq, Prod.mk.injEq] at hrun
        obtain ⟨rfl, -⟩ := hrun
        refine ⟨rfl, rfl, fun m => ?_⟩
        show q.nodes.kill n m = q.nodes m ∨ q.nodes.kill n m = none
        rw [Heap.kill_apply]
        split
        · exact Or.inr rfl
        · exact Or.inl rfl

theorem gcLoop_swept {limit : ℕ} : ∀ {rounds : ℕ} {q : Counted A V},
    (gcLoop freeNodePtr limit rounds).run q = some (q', ()) →
      Swept q q' ∧ q'.freeList.length ≤ limit := by
  intro rounds
  induction rounds with
  | zero => nofun
  | succ rounds ih =>
      intro q hrun
      have hcount : freeCount.run q = some (q, (q.freeList.length, q.gcThreshold)) := by
        simp [freeCount]
      rw [gcLoop, Prog.run_bind_of_run hcount] at hrun
      by_cases hlt : limit < q.freeList.length
      · rw [if_pos hlt] at hrun
        cases hfree : q.freeList with
        | nil =>
            rw [hfree] at hlt
            exact absurd hlt (Nat.not_lt_zero limit)
        | cons n rest =>
            have hread : readFreeList.run q = some ({ q with freeList := rest }, some n) := by
              simp [readFreeList, hfree]
            rw [Prog.run_bind_of_run hread] at hrun
            have hround : (collect freeNodePtr n >>= fun _ =>
                gcLoop freeNodePtr limit rounds).run { q with freeList := rest } =
                  some (q', ()) := by
              simpa only [collect, Prog.bind_assoc] using hrun
            rw [Prog.run_bind] at hround
            obtain ⟨⟨q₁, u⟩, hcollect, hloop⟩ := Option.bind_eq_some_iff.mp hround
            obtain ⟨hswept, hlen⟩ := ih hloop
            have hfirst := collect_swept hcollect
            exact ⟨Swept.trans ⟨hfirst.terminated, hfirst.gcThreshold, hfirst.nodes⟩ hswept, hlen⟩
      · rw [if_neg hlt] at hrun
        cases hrun
        exact ⟨Swept.refl _, Nat.not_lt.mp hlt⟩

theorem gcIfDue_swept (hrun : (gcIfDue bound freeNodePtr).run q = some (q', ())) :
    Swept q q' ∧ q'.freeList.length ≤ q'.gcThreshold := by
  have hcount : freeCount.run q = some (q, (q.freeList.length, q.gcThreshold)) := by
    simp [freeCount]
  rw [gcIfDue, Prog.run_bind_of_run hcount] at hrun
  dsimp only at hrun
  split at hrun
  · obtain ⟨hswept, hlen⟩ := gcLoop_swept hrun
    refine ⟨hswept, ?_⟩
    rw [hswept.gcThreshold]
    exact hlen.trans (Nat.div_le_self _ _)
  · cases hrun
    exact ⟨Swept.refl q, by omega⟩

/-! ## Counts -/

/-- The count of a node, if there is one, becomes another. -/
def changeCount (f : UInt32 → UInt32) (q : Counted A V) : Option Addr → Counted A V
  | none => q
  | some n =>
      match q.nodes n with
      | some nd => { q with nodes := q.nodes.put n { nd with count := f nd.count } }
      | none => q

theorem changeCount_some (f : UInt32 → UInt32) (hn : q.nodes n = some nd) :
    changeCount f q (some n) = { q with nodes := q.nodes.put n { nd with count := f nd.count } } := by
  rw [changeCount, hn]

theorem changeCount_freeList (f : UInt32 → UInt32) (q : Counted A V) (ref : Option Addr) :
    (changeCount f q ref).freeList = q.freeList := by
  cases ref with
  | none => rfl
  | some n =>
      rw [changeCount]
      split <;> rfl

theorem changeCount_gcThreshold (f : UInt32 → UInt32) (q : Counted A V) (ref : Option Addr) :
    (changeCount f q ref).gcThreshold = q.gcThreshold := by
  cases ref with
  | none => rfl
  | some n =>
      rw [changeCount]
      split <;> rfl

theorem updateCount_run (f : UInt32 → UInt32) (hn : q.nodes n = some nd) :
    (updateCount n f).run q = some (changeCount f q (some n), ()) := by
  rw [changeCount_some f hn]
  simp [updateCount, hn]

theorem isSome_changeCount (f : UInt32 → UInt32) (q : Counted A V) (ref : Option Addr) (n : Addr) :
    ((changeCount f q ref).nodes n).isSome = (q.nodes n).isSome := by
  cases ref with
  | none => rfl
  | some m =>
      cases hm : q.nodes m with
      | none => rw [changeCount, hm]
      | some md =>
          rw [changeCount_some f hm, ← Bool.coe_iff_coe, ← Heap.mem_live, ← Heap.mem_live]
          show n ∈ (q.nodes.put m _).live ↔ _
          rw [Heap.live_put]

/-- A node that was terminated: its flag is set, and its count is zero. -/
def Retired (q : Counted A V) (n : Addr) : Prop :=
  ∃ nd, q.nodes n = some nd ∧ nd.updating = true ∧ nd.count = 0

theorem derefNode_run_eq (hn : q.nodes n = some nd) : (derefNode n).run q =
    if nd.updating = true ∧ nd.count = 0 then some (q, none)
    else some (changeCount (· + 1) q (some n), some n) := by
  rw [derefNode, Prog.run_bind, readField_run, hn]
  simp only [Option.map_some, Option.bind_some]
  by_cases hu : nd.updating = true
  · rw [if_pos hu, Prog.run_bind, readField_run, hn]
    simp only [Option.map_some, Option.bind_some]
    by_cases hc : nd.count = 0
    · rw [if_pos hc, if_pos ⟨hu, hc⟩]
      rfl
    · rw [if_neg hc, if_neg fun h => hc h.2, Prog.run_bind_of_run (updateCount_run _ hn)]
      rfl
  · rw [if_neg hu, if_neg fun h => hu h.1, Prog.run_bind_of_run (updateCount_run _ hn)]
    rfl

/-- The state after a node was terminated. -/
def terminatedState (q : Counted A V) (n : Addr) (nd : RefcntNode (ℕ × V)) : Counted A V :=
  { q with
    nodes := q.nodes.put n { nd with count := 0, updating := true }
    freeList := if q.freeList.length < freeListSize q.gcThreshold then q.freeList ++ [n]
      else q.freeList
    terminated := q.terminated ++ [nd.ptr] }

/-- The rest of `release_ref`, after the count was looked at. -/
def releaseRest (bound : ℕ) (node : Addr) : Prog (Counted A V) Unit := do
  if ← casUpdating node false true then
    releaseFlagged node
  gcIfDue bound freeNodePtr

theorem releaseRest_run (hn : q.nodes n = some nd) (hfree : q.freeList.length ≤ q.gcThreshold) :
    (releaseRest bound n).run q =
      if nd.updating = false ∧ nd.count = 0 then
        (gcIfDue bound freeNodePtr).run (terminatedState q n nd)
      else some (q, ()) := by
  have hput : ∀ v, (q.nodes.put n v) n = some v := fun v => Heap.put_self hn
  have hdue : (gcIfDue bound freeNodePtr).run q = some (q, ()) :=
    gcIfDue_run bound freeNodePtr hfree
  cases hu : nd.updating with
  | true =>
      rw [if_neg fun h => Bool.noConfusion h.1]
      simp [releaseRest, Prog.run_bind, casUpdating, hn, hu, hdue]
  | false =>
      by_cases hzero : nd.count = 0
      · rw [if_pos ⟨rfl, hzero⟩, terminatedState]
        simp [releaseRest, Prog.run_bind, casUpdating, hn, hu, releaseFlagged, hput, hzero,
          terminateNode]
      · rw [if_neg fun h => hzero h.2]
        have hback : q.nodes.put n { nd with updating := false } = q.nodes :=
          Heap.put_eq_self (hn.trans (by rw [← hu]))
        simp [releaseRest, Prog.run_bind, casUpdating, hn, hu, releaseFlagged, hput, hzero,
          Heap.put_put, hback, hdue]

/-- `release_ref` in general, up to the collection. -/
theorem releaseRef_run_eq (hn : q.nodes n = some nd) (hfree : q.freeList.length ≤ q.gcThreshold) :
    (releaseRef bound freeNodePtr n).run q =
      if nd.updating = false ∧ nd.count ≤ 1 then
        (gcIfDue bound freeNodePtr).run (terminatedState q n nd)
      else if nd.count = 0 then some (q, ())
      else some (changeCount (· - 1) q (some n), ()) := by
  rw [releaseRef, Prog.run_bind, readField_run, hn]
  simp only [Option.map_some, Option.bind_some]
  by_cases hzero : nd.count = 0
  · have hpos : ¬ 0 < nd.count := by
      rw [hzero]
      exact UInt32.lt_irrefl 0
    have hle : nd.count ≤ 1 := by
      rw [hzero]
      decide
    rw [if_neg hpos, if_pos hzero]
    refine (releaseRest_run hn hfree).trans (if_congr ?_ rfl rfl)
    rw [and_iff_left hzero, and_iff_left hle]
  · have hpos : 0 < nd.count := UInt32.pos_iff_ne_zero.mpr hzero
    have hn' : (changeCount (· - 1) q (some n)).nodes n = some { nd with count := nd.count - 1 } := by
      rw [changeCount_some _ hn]
      exact Heap.put_self hn
    have hlast : nd.count - 1 = 0 ↔ nd.count ≤ 1 := by
      grind
    rw [if_pos hpos, if_neg hzero, Prog.run_bind_of_run (updateCount_run _ hn)]
    have hfree' : (changeCount (· - 1) q (some n)).freeList.length ≤
        (changeCount (· - 1) q (some n)).gcThreshold := by
      rw [changeCount_freeList, changeCount_gcThreshold]
      exact hfree
    refine (releaseRest_run hn' hfree').trans (if_congr ?_ ?_ rfl)
    · rw [hlast]
    · rw [changeCount_some _ hn]
      simp only [terminatedState, Heap.put_put]

/-! ## Comparing the two -/

/-- The effects that are compared. -/
structure SameEffect (q q' : Counted A V) : Prop where
  refcount : refcount q' = refcount q
  terminated : q'.terminated = q.terminated
  freeList : q'.freeList = q.freeList
  links : q'.links = q.links

theorem SameEffect.refl (q : Counted A V) : SameEffect q q := ⟨rfl, rfl, rfl, rfl⟩

theorem refcount_changeCount (f : UInt32 → UInt32) (hn : q.nodes n = some nd) :
    refcount (changeCount f q (some n)) = Function.update (refcount q) n (f nd.count).toNat := by
  rw [changeCount_some f hn]
  exact refcount_put hn

theorem Swept.refcount_eq_zero (h : Swept q q') (hzero : refcount q n = 0) :
    refcount q' n = 0 := by
  rcases h.nodes n with heq | hnone
  · rw [refcount, heq]
    exact hzero
  · rw [refcount, hnone]

/-- Another reference remains, or the node was terminated before. -/
def Remains (nd : RefcntNode (ℕ × V)) : Prop :=
  1 < nd.count ∨ nd.count = 1 ∧ nd.updating = true

/-- Releasing a reference only decrements the count if another one remains. -/
theorem releaseRef_same_iff (bound : ℕ) (hn : q.nodes n = some nd)
    (hfree : q.freeList.length ≤ q.gcThreshold) :
    (∃ q', (releaseRef bound freeNodePtr n).run q = some (q', ()) ∧
      SameEffect q' (changeCount (· - 1) q (some n))) ↔ Remains nd := by
  rw [releaseRef_run_eq hn hfree]
  constructor
  · rintro ⟨q', hrun, hsame⟩
    split at hrun
    case isTrue hlast =>
      have hswap : (changeCount (· - 1) q (some n)).terminated = q.terminated := by
        rw [changeCount_some _ hn]
      have hterm : q.terminated = q.terminated ++ [nd.ptr] :=
        (hswap.symm.trans hsame.terminated).trans (gcIfDue_swept hrun).1.terminated
      exact absurd (List.self_eq_append_right.mp hterm) (List.cons_ne_nil _ _)
    case isFalse hmore =>
      split at hrun
      case isTrue hzero =>
        cases hrun
        have hcount := congrFun hsame.refcount n
        rw [refcount_changeCount _ hn, Function.update_self, refcount_eq hn, hzero] at hcount
        exact absurd hcount (by decide)
      case isFalse hpos =>
        by_cases hu : nd.updating = true
        · have hge : 1 < nd.count ∨ nd.count = 1 := by
            grind
          exact hge.imp_right fun hone => ⟨hone, hu⟩
        · refine Or.inl (UInt32.not_le.mp fun hle => hmore ⟨Bool.eq_false_iff.mpr hu, hle⟩)
  · intro hremains
    have hmore : ¬ (nd.updating = false ∧ nd.count ≤ 1) := by
      rintro ⟨hu, hle⟩
      rcases hremains with hlt | ⟨-, hu'⟩
      · exact UInt32.not_lt.mpr hle hlt
      · rw [hu] at hu'
        cases hu'
    have hpos : ¬ nd.count = 0 := by
      intro hzero
      rcases hremains with hlt | ⟨hone, -⟩
      · rw [hzero] at hlt
        exact absurd hlt (by decide)
      · rw [hzero] at hone
        exact absurd hone (by decide)
    rw [if_neg hmore, if_neg hpos]
    exact ⟨_, rfl, SameEffect.refl _⟩

/-- Releasing a reference to another node gives no count to a node without one. -/
theorem releaseRef_refcount_eq_zero (hn : q.nodes n = some nd)
    (hfree : q.freeList.length ≤ q.gcThreshold)
    (hrun : (releaseRef bound freeNodePtr n).run q = some (q', ())) (hne : r ≠ n)
    (hzero : refcount q r = 0) : refcount q' r = 0 := by
  rw [releaseRef_run_eq hn hfree] at hrun
  split at hrun
  · refine (gcIfDue_swept hrun).1.refcount_eq_zero ?_
    have hcounts : refcount (terminatedState q n nd) = Function.update (refcount q) n 0 :=
      refcount_put (w := { nd with count := 0, updating := true }) hn
    rw [hcounts, Function.update_of_ne hne, hzero]
  split at hrun
  · cases hrun
    exact hzero
  · cases hrun
    rw [refcount_changeCount _ hn, Function.update_of_ne hne, hzero]

/-- What the node that is displaced counts once the new reference was counted. -/
def countBeside (ref : Option Addr) (n : Addr) (nd : RefcntNode (ℕ × V)) : RefcntNode (ℕ × V) :=
  if ref = some n then { nd with count := nd.count + 1 } else nd

theorem nodes_countBeside (hn : q.nodes n = some nd) (ref : Option Addr) :
    (changeCount (· + 1) q ref).nodes n = some (countBeside ref n nd) := by
  cases ref with
  | none =>
      rw [countBeside, if_neg (Option.some_ne_none n).symm]
      exact hn
  | some r =>
      by_cases hrn : r = n
      · rw [countBeside, if_pos (congrArg some hrn), hrn, changeCount_some _ hn]
        exact Heap.put_self hn
      · rw [countBeside, if_neg fun h => hrn (Option.some.inj h)]
        cases hr : q.nodes r with
        | none =>
            rw [changeCount, hr]
            exact hn
        | some rd =>
            rw [changeCount_some _ hr]
            exact (Heap.put_of_ne (Ne.symm hrn)).trans hn

/-! ## The two calls -/

/-- An update of the count of a node, if there is one. -/
def updateRef (f : UInt32 → UInt32) : Option Addr → Prog (Counted A V) Unit
  | none => pure ()
  | some n => updateCount n f

theorem updateRef_run (f : UInt32 → UInt32) (href : ∀ n ∈ ref, (q.nodes n).isSome = true) :
    (updateRef f ref).run q = some (changeCount f q ref, ()) := by
  cases ref with
  | none => rfl
  | some n =>
      obtain ⟨nd, hn⟩ := Option.isSome_iff_exists.mp (href n rfl)
      exact updateCount_run f hn

variable [DecidableEq A]

/-- The state after the cell was changed. -/
def exchanged (q : Counted A V) (a : A) (ref : Option Addr) : Counted A V :=
  { q with links := Function.update q.links a (some ⟨ref, false⟩) }

theorem compareAndSwapRef_eq (a : A) (old ref : Option Addr) :
    compareAndSwapRef a old ref = (casLink a ⟨old, false⟩ ⟨ref, false⟩ >>= fun ok =>
      if ok then updateRef (· + 1) ref >>= fun _ => updateRef (· - 1) old >>= fun _ => pure true
      else pure false : Prog (Counted A V) Bool) := by
  cases ref with
  | none => cases old <;> rfl
  | some r => cases old <;> rfl

theorem compareAndSwapRef_run (ha : q.links a = some ⟨old, false⟩)
    (hold : ∀ n ∈ old, (q.nodes n).isSome = true) (href : ∀ n ∈ ref, (q.nodes n).isSome = true) :
    (compareAndSwapRef a old ref).run q =
      some (changeCount (· - 1) (changeCount (· + 1) (exchanged q a ref) ref) old, true) := by
  have hcas : (casLink a ⟨old, false⟩ ⟨ref, false⟩).run q = some (exchanged q a ref, true) :=
    casLink_run ha
  have href' : ∀ n ∈ ref, ((exchanged q a ref).nodes n).isSome = true := href
  rw [compareAndSwapRef_eq, Prog.run_bind_of_run hcas, if_pos rfl,
    Prog.run_bind_of_run (updateRef_run _ href'), Prog.run_bind_of_run (updateRef_run _ ?_)]
  · rfl
  · intro n hn
    rw [isSome_changeCount]
    exact hold n hn

theorem compareAndSwapRef_run_ne {r : Ref} (ha : q.links a = some r) (hne : r ≠ ⟨old, false⟩) :
    (compareAndSwapRef a old ref).run q = some (q, false) := by
  have hcas : (casLink a ⟨old, false⟩ ⟨ref, false⟩).run q = some (q, false) := by
    simp [casLink, ha, hne]
  rw [compareAndSwapRef, Prog.run_bind_of_run hcas]
  rfl

/-- The node that is stored gets a reference, unless it was terminated. -/
def retained (q : Counted A V) (ref : Option Addr) : Counted A V :=
  match ref with
  | none => q
  | some n =>
      match q.nodes n with
      | some nd => if nd.updating = true ∧ nd.count = 0 then q else changeCount (· + 1) q (some n)
      | none => q

theorem storeRef_run (hb : 0 < bound) (ha : q.links a = some ⟨old, false⟩)
    (href : ∀ n ∈ ref, (q.nodes n).isSome = true) :
    (storeRef bound freeNodePtr a ref).run q =
      match old with
      | none => some (retained (exchanged q a ref) ref, ())
      | some n => (releaseRef bound freeNodePtr n).run (retained (exchanged q a ref) ref) := by
  rw [storeRef, Prog.run_bind_of_run (exchangeLink_run ⟨ref, false⟩ hb ha)]
  cases ref with
  | none =>
      cases old with
      | none => rfl
      | some n => rfl
  | some r =>
      obtain ⟨rd, hr⟩ := Option.isSome_iff_exists.mp (href r rfl)
      have hr' : (exchanged q a (some r)).nodes r = some rd := hr
      have hretain : ∃ x, (retainRef r).run (exchanged q a (some r)) =
          some (retained (exchanged q a (some r)) (some r), x) := by
        rw [retainRef, derefNode_run_eq hr', retained, hr']
        dsimp only
        split
        · exact ⟨none, rfl⟩
        · exact ⟨some r, rfl⟩
      obtain ⟨x, hretain⟩ := hretain
      refine (Prog.run_bind_of_run hretain).trans ?_
      cases old with
      | none => rfl
      | some n => rfl

/-! ## When they agree -/

/-- The new node was not terminated, unless it is the displaced one, and the displaced one keeps
another reference. -/
structure SwapFits (q : Counted A V) (old ref : Option Addr) : Prop where
  stored : ∀ n ∈ ref, ref = old ∨ ¬ Retired q n
  displaced : ∀ n ∈ old, ∃ nd, q.nodes n = some nd ∧ Remains (countBeside ref n nd)

/-- The two calls have the same effect. -/
def SwapsLikeStore (bound : ℕ) (q : Counted A V) (a : A) (old ref : Option Addr) : Prop :=
  ∃ q₁ q₂, (compareAndSwapRef a old ref).run q = some (q₁, true) ∧
    (storeRef bound freeNodePtr a ref).run q = some (q₂, ()) ∧ SameEffect q₂ q₁

/-- The reference to a terminated node is counted by the one call and not by the other. -/
theorem not_swapsLikeStore_of_retired (hb : 0 < bound)
    (hfree : q.freeList.length ≤ q.gcThreshold) (ha : q.links a = some ⟨old, false⟩)
    (hold : ∀ n ∈ old, (q.nodes n).isSome = true) (hr : Retired q r) (hne : old ≠ some r) :
    ¬ SwapsLikeStore bound q a old (some r) := by
  obtain ⟨rd, hn, hu, hc⟩ := hr
  have href : ∀ n ∈ some r, (q.nodes n).isSome = true := by
    intro n hmem
    cases hmem
    rw [hn]
    rfl
  rintro ⟨q₁, q₂, hswap, hstore, hsame⟩
  rw [compareAndSwapRef_run ha hold href] at hswap
  cases hswap
  have hn₀ : (exchanged q a (some r)).nodes r = some rd := hn
  have hkept : retained (exchanged q a (some r)) (some r) = exchanged q a (some r) := by
    rw [retained, hn₀]
    exact if_pos ⟨hu, hc⟩
  have hzero : refcount (exchanged q a (some r)) r = 0 := by
    rw [refcount_eq hn₀, hc]
    rfl
  rw [storeRef_run hb ha href, hkept] at hstore
  have hcount := congrFun hsame.refcount r
  cases old with
  | none =>
      cases hstore
      rw [changeCount, refcount_changeCount _ hn₀, Function.update_self, hzero, hc] at hcount
      exact absurd hcount (by decide)
  | some o =>
      obtain ⟨od, ho⟩ := Option.isSome_iff_exists.mp (hold o rfl)
      have hro : r ≠ o := fun heq => hne (congrArg some heq.symm)
      have ho₀ : (exchanged q a (some r)).nodes o = some od := ho
      have hrelease := releaseRef_refcount_eq_zero ho₀ hfree hstore hro hzero
      have ho₁ : (changeCount (· + 1) (exchanged q a (some r)) (some r)).nodes o = some od := by
        rw [changeCount_some _ hn₀]
        exact (Heap.put_of_ne hro.symm).trans ho
      rw [refcount_changeCount _ ho₁, Function.update_of_ne hro, refcount_changeCount _ hn₀,
        Function.update_self, hrelease, hc] at hcount
      exact absurd hcount (by decide)

/-- A terminated node that is stored over itself. -/
theorem swapsLikeStore_self_of_retired (hb : 0 < bound)
    (hfree : q.freeList.length ≤ q.gcThreshold) (ha : q.links a = some ⟨some r, false⟩)
    (hr : Retired q r) : SwapsLikeStore bound q a (some r) (some r) := by
  obtain ⟨rd, hn, hu, hc⟩ := hr
  have hlive : ∀ n ∈ some r, (q.nodes n).isSome = true := by
    intro n hmem
    cases hmem
    rw [hn]
    rfl
  have hn₀ : (exchanged q a (some r)).nodes r = some rd := hn
  have hkept : retained (exchanged q a (some r)) (some r) = exchanged q a (some r) := by
    rw [retained, hn₀]
    exact if_pos ⟨hu, hc⟩
  have hn₁ : (changeCount (· + 1) (exchanged q a (some r)) (some r)).nodes r =
      some { rd with count := rd.count + 1 } := by
    rw [changeCount_some _ hn₀]
    exact Heap.put_self hn₀
  have hrelease : (releaseRef bound freeNodePtr r).run (exchanged q a (some r)) =
      some (exchanged q a (some r), ()) := by
    rw [releaseRef_run_eq hn₀ hfree, if_neg fun h => Bool.noConfusion (hu.symm.trans h.1), if_pos hc]
  refine ⟨_, exchanged q a (some r), compareAndSwapRef_run ha hlive hlive, ?_, ?_, ?_, ?_, ?_⟩
  · rw [storeRef_run hb ha hlive, hkept]
    exact hrelease
  · rw [refcount_changeCount _ hn₁, refcount_changeCount _ hn₀, Function.update_idem]
    have hback : (rd.count + 1 - 1).toNat = refcount (exchanged q a (some r)) r := by
      rw [refcount_eq hn₀, hc]
      rfl
    rw [hback, Function.update_eq_self]
  · rw [changeCount_some _ hn₁, changeCount_some _ hn₀]
  · rw [changeCount_some _ hn₁, changeCount_some _ hn₀]
  · rw [changeCount_some _ hn₁, changeCount_some _ hn₀]

/-- Otherwise the reference is counted by both. -/
theorem swapsLikeStore_iff_of_not_retired (hb : 0 < bound)
    (hfree : q.freeList.length ≤ q.gcThreshold) (ha : q.links a = some ⟨old, false⟩)
    (hold : ∀ n ∈ old, (q.nodes n).isSome = true) (href : ∀ n ∈ ref, (q.nodes n).isSome = true)
    (hret : ∀ n ∈ ref, ¬ Retired q n) :
    SwapsLikeStore bound q a old ref ↔
      ∀ n ∈ old, ∃ nd, q.nodes n = some nd ∧ Remains (countBeside ref n nd) := by
  have hkept : retained (exchanged q a ref) ref = changeCount (· + 1) (exchanged q a ref) ref := by
    cases ref with
    | none => rfl
    | some r =>
        obtain ⟨rd, hr⟩ := Option.isSome_iff_exists.mp (href r rfl)
        have hr₀ : (exchanged q a (some r)).nodes r = some rd := hr
        rw [retained, hr₀]
        exact if_neg fun h => hret r rfl ⟨rd, hr, h⟩
  have hstore := storeRef_run hb ha href
  rw [hkept] at hstore
  have hswap := compareAndSwapRef_run ha hold href
  cases old with
  | none =>
      refine iff_of_true ⟨_, _, hswap, hstore, SameEffect.refl _⟩ ?_
      intro n hn
      cases hn
  | some o =>
      obtain ⟨od, ho⟩ := Option.isSome_iff_exists.mp (hold o rfl)
      have ho₀ : (exchanged q a ref).nodes o = some od := ho
      have ho₁ := nodes_countBeside ho₀ ref
      have hfree₁ : (changeCount (· + 1) (exchanged q a ref) ref).freeList.length ≤
          (changeCount (· + 1) (exchanged q a ref) ref).gcThreshold := by
        rw [changeCount_freeList, changeCount_gcThreshold]
        exact hfree
      have hiff := releaseRef_same_iff bound ho₁ hfree₁
      constructor
      · rintro ⟨q₁, q₂, hswap', hstore', hsame⟩ n hn
        cases hn
        rw [hswap] at hswap'
        cases hswap'
        rw [hstore] at hstore'
        exact ⟨od, ho, hiff.mp ⟨q₂, hstore', hsame⟩⟩
      · intro hremains
        obtain ⟨od', ho', hremain⟩ := hremains o rfl
        rw [ho] at ho'
        cases ho'
        obtain ⟨q₂, hrelease, hsame⟩ := hiff.mpr hremain
        exact ⟨_, q₂, hswap, hstore.trans hrelease, hsame⟩

theorem swapsLikeStore_iff_of_le (hb : 0 < bound) (hfree : q.freeList.length ≤ q.gcThreshold)
    (ha : q.links a = some ⟨old, false⟩) (hold : ∀ n ∈ old, (q.nodes n).isSome = true)
    (href : ∀ n ∈ ref, (q.nodes n).isSome = true) :
    SwapsLikeStore bound q a old ref ↔ SwapFits q old ref := by
  by_cases hret : ∀ n ∈ ref, ¬ Retired q n
  · rw [swapsLikeStore_iff_of_not_retired hb hfree ha hold href hret]
    exact ⟨fun h => ⟨fun n hn => Or.inr (hret n hn), h⟩, SwapFits.displaced⟩
  · push Not at hret
    obtain ⟨r, hr, hretired⟩ := hret
    cases hr
    by_cases hsame : old = some r
    · subst hsame
      obtain ⟨rd, hn, hu, hc⟩ := hretired
      refine iff_of_true (swapsLikeStore_self_of_retired hb hfree ha ⟨rd, hn, hu, hc⟩)
        ⟨fun n _ => Or.inl rfl, fun n hn' => ?_⟩
      cases hn'
      refine ⟨rd, hn, Or.inr ⟨?_, ?_⟩⟩
      · rw [countBeside, if_pos rfl, hc]
        rfl
      · rw [countBeside, if_pos rfl]
        exact hu
    · refine iff_of_false (not_swapsLikeStore_of_retired hb hfree ha hold hretired hsame) ?_
      intro hfits
      rcases hfits.stored r rfl with heq | hnot
      · exact hsame heq.symm
      · exact hnot hretired

/-! ## Sequential states -/

/-- The states that calls in a single thread lead to, one of which is `compare_and_swap_ref`.  The
user may also write a cell himself. -/
inductive Sequential : Session A V → Prop where
  | start (gcThreshold : UInt32) (links : A → Option Ref) :
      Sequential (Session.start gcThreshold links)
  | call {s s' : Session A V} {o : Option Addr} (h : Sequential s) (c : Call A V)
      (hrun : s.step c = some (s', o)) : Sequential s'
  | swap {s : Session A V} {rc : Counted A V} {ok : Bool} (h : Sequential s) (a : A)
      (old ref : Option Addr) (hrun : (compareAndSwapRef a old ref).run s.rc = some (rc, ok)) :
      Sequential { s with rc := rc }
  | write {s : Session A V} (h : Sequential s) (a : A) (r : Ref) :
      Sequential { s with rc := { s.rc with links := Function.update s.rc.links a (some r) } }

variable {s : Session A V}

/-- The free list is within its threshold. -/
def Within (q : Counted A V) : Prop := q.freeList.length ≤ q.gcThreshold

omit [DecidableEq A] in
theorem Within.changeCount (h : Within q) (f : UInt32 → UInt32) (ref : Option Addr) :
    Within (changeCount f q ref) := by
  rw [Within, changeCount_freeList, changeCount_gcThreshold]
  exact h

omit [DecidableEq A] in
theorem Within.updateRef (h : Within q) {f : UInt32 → UInt32}
    (hrun : (updateRef f ref).run q = some (q', ())) : Within q' := by
  cases ref with
  | none =>
      cases hrun
      exact h
  | some n =>
      cases hn : q.nodes n with
      | none => simp [RefCnt.updateRef, updateCount, hn] at hrun
      | some nd =>
          rw [RefCnt.updateRef, updateCount_run f hn] at hrun
          cases hrun
          exact h.changeCount f (some n)

omit [DecidableEq A] in
theorem Within.derefNode {x : Option Addr} (h : Within q)
    (hrun : (derefNode n).run q = some (q', x)) : Within q' := by
  cases hn : q.nodes n with
  | none => simp [RefCnt.derefNode, Prog.run_bind, hn] at hrun
  | some nd =>
      rw [derefNode_run_eq hn] at hrun
      split at hrun
      · cases hrun
        exact h
      · cases hrun
        exact h.changeCount (· + 1) (some n)

omit [DecidableEq A] in
theorem Within.releaseRef (h : Within q)
    (hrun : (releaseRef bound freeNodePtr n).run q = some (q', ())) : Within q' := by
  cases hn : q.nodes n with
  | none => simp [RefCnt.releaseRef, Prog.run_bind, hn] at hrun
  | some nd =>
      rw [releaseRef_run_eq hn h] at hrun
      split at hrun
      · exact (gcIfDue_swept hrun).2
      split at hrun
      · cases hrun
        exact h
      · cases hrun
        exact h.changeCount (· - 1) (some n)

omit [DecidableEq A] in
theorem Within.newNode {ptr : ℕ × V} (h : Within q)
    (hrun : (newNode ptr).run q = some (q', n)) : Within q' := by
  rw [RefCnt.newNode, Prog.run_atomic] at hrun
  split at hrun
  · cases hrun
    exact h
  · obtain ⟨nd, -, heq⟩ := Option.map_eq_some_iff.mp hrun
    cases heq
    exact h

omit [DecidableEq A] in
theorem Within.derefLink {x : Option Addr} (h : Within q)
    (hrun : (derefLink a).run q = some (q', x)) : Within q' := by
  rw [RefCnt.derefLink, derefLinkInternal, Prog.run_bind, readLink_run] at hrun
  obtain ⟨⟨q₁, r⟩, hread, hrun⟩ := Option.bind_eq_some_iff.mp hrun
  obtain ⟨r', -, heq⟩ := Option.map_eq_some_iff.mp hread
  cases heq
  dsimp only at hrun
  split at hrun
  · cases hrun
    exact h
  split at hrun
  · cases hrun
    exact h
  · exact h.derefNode hrun

theorem Within.storeRef (h : Within q) (hb : 0 < bound)
    (hrun : (storeRef bound freeNodePtr a ref).run q = some (q', ())) : Within q' := by
  have hrest : ∀ {q₁ : Counted A V} {r : Ref}, Within q₁ →
      (if r = null then pure () else releaseOld bound freeNodePtr r : Prog _ _).run q₁ =
        some (q', ()) → Within q' := by
    intro q₁ r h₁ hrest
    split at hrest
    · cases hrest
      exact h₁
    · rw [releaseOld] at hrest
      split at hrest
      · cases hrest
      · exact h₁.releaseRef hrest
  cases ha : q.links a with
  | none =>
      obtain ⟨k, rfl⟩ := Nat.exists_eq_succ_of_ne_zero (Nat.ne_of_gt hb)
      simp [RefCnt.storeRef, exchangeLink, Prog.run_bind, ha] at hrun
  | some r =>
      have h₀ : Within (exchanged q a ref) := h
      rw [RefCnt.storeRef, Prog.run_bind_of_run (exchangeLink_run ⟨ref, false⟩ hb ha)] at hrun
      cases ref with
      | none => exact hrest h₀ hrun
      | some n =>
          obtain ⟨⟨q₁, x⟩, hretain, hrun⟩ := Option.bind_eq_some_iff.mp ((Prog.run_bind ..).symm.trans hrun)
          exact hrest (h₀.derefNode hretain) hrun

theorem Within.compareAndSwapRef {ok : Bool} (h : Within q)
    (hrun : (compareAndSwapRef a old ref).run q = some (q', ok)) : Within q' := by
  rw [compareAndSwapRef_eq, Prog.run_bind] at hrun
  obtain ⟨⟨q₁, b⟩, hcas, hrun⟩ := Option.bind_eq_some_iff.mp hrun
  have h₁ : Within q₁ := by
    rw [casLink, Prog.run_atomic] at hcas
    obtain ⟨r, -, heq⟩ := Option.map_eq_some_iff.mp hcas
    split at heq
    · cases heq
      exact h
    · cases heq
      exact h
  cases b with
  | false =>
      cases hrun
      exact h₁
  | true =>
      rw [if_pos rfl, Prog.run_bind] at hrun
      obtain ⟨⟨q₂, u⟩, htake, hrun⟩ := Option.bind_eq_some_iff.mp hrun
      rw [Prog.run_bind] at hrun
      obtain ⟨⟨q₃, u⟩, hgive, hrun⟩ := Option.bind_eq_some_iff.mp hrun
      cases hrun
      exact (h₁.updateRef htake).updateRef hgive

theorem Sequential.within (h : Sequential s) : Within s.rc := by
  induction h with
  | start gcThreshold links => exact Nat.zero_le _
  | @call s s' o h c hrun ih =>
      cases c with
      | newNode ptr =>
          obtain ⟨⟨q₁, x⟩, hnew, heq⟩ := Option.bind_eq_some_iff.mp hrun
          cases heq
          exact ih.newNode hnew
      | retainRef node =>
          obtain ⟨⟨q₁, x⟩, hderef, heq⟩ := Option.bind_eq_some_iff.mp hrun
          cases heq
          exact ih.derefNode hderef
      | derefLink a =>
          obtain ⟨⟨q₁, x⟩, hderef, heq⟩ := Option.bind_eq_some_iff.mp hrun
          cases heq
          exact ih.derefLink hderef
      | releaseRef node =>
          obtain ⟨⟨q₁, x⟩, hrelease, heq⟩ := Option.bind_eq_some_iff.mp hrun
          cases heq
          exact ih.releaseRef hrelease
      | storeRef a ref =>
          obtain ⟨⟨q₁, x⟩, hstore, heq⟩ := Option.bind_eq_some_iff.mp hrun
          cases heq
          exact ih.storeRef (Nat.succ_pos _) hstore
  | swap h a old ref hrun ih => exact ih.compareAndSwapRef hrun
  | write h a r ih => exact ih

/-- In every sequential state the two calls have the same effect exactly if the new node was not
terminated before and the displaced one keeps another reference.  A cell that holds something
else is left alone. -/
theorem swapsLikeStore_iff (h : Sequential s) (a : A) {old ref : Option Addr}
    (hold : ∀ n ∈ old, (s.rc.nodes n).isSome = true)
    (href : ∀ n ∈ ref, (s.rc.nodes n).isSome = true) :
    (s.rc.links a = some ⟨old, false⟩ →
      (SwapsLikeStore s.rounds s.rc a old ref ↔ SwapFits s.rc old ref)) ∧
    ∀ r, s.rc.links a = some r → r ≠ ⟨old, false⟩ →
      (compareAndSwapRef a old ref).run s.rc = some (s.rc, false) :=
  ⟨fun ha => swapsLikeStore_iff_of_le (Nat.succ_pos _) h.within ha hold href,
    fun _ ha hne => compareAndSwapRef_run_ne ha hne⟩

theorem Sequential.runSteps {calls : List (Call A V)} {s' : Session A V}
    {os : List (Option Addr)} (h : Sequential s)
    (hrun : runSteps Session.step s calls = some (s', os)) : Sequential s' := by
  have hstep : ∀ (s : Session A V) c s' o, Sequential s → s.step c = some (s', o) →
      Sequential s' := fun _ c _ _ h hstep => h.call c hstep
  exact invariant_of_all_steps hstep calls s s' os h hrun

/-- A node that a cell refers to, while the user still holds it. -/
def storedAndHeld : List (Call Unit Unit) := [.newNode (), .storeRef () (some 0)]

/-- There the two calls have the same effect, and another expected reference changes nothing. -/
theorem swapsLikeStore_iff_storedAndHeld : ∃ s os,
    runSteps Session.step (Session.start 0 fun _ => some null) storedAndHeld = some (s, os) ∧
    (SwapsLikeStore s.rounds s.rc () (some 0) none ↔ SwapFits s.rc (some 0) none) ∧
    (compareAndSwapRef () none none).run s.rc = some (s.rc, false) := by
  have hcells : (runSteps Session.step (Session.start 0 fun _ => some null) storedAndHeld).map
      (fun r => (r.1.rc.links (), (r.1.rc.nodes 0).isSome)) = some (some (refTo 0), true) := by
    decide
  obtain ⟨⟨s, os⟩, hrun, hcells⟩ := Option.map_eq_some_iff.mp hcells
  obtain ⟨hlink, hlive⟩ := Prod.mk.inj hcells
  have hs : Sequential s := (Sequential.start 0 fun _ => some null).runSteps hrun
  have hold : ∀ n ∈ some 0, (s.rc.nodes n).isSome = true := by
    intro n hn
    cases hn
    exact hlive
  have hnull : ∀ n ∈ (none : Option Addr), (s.rc.nodes n).isSome = true := nofun
  exact ⟨s, os, hrun, (swapsLikeStore_iff hs () hold hnull).1 hlink,
    (swapsLikeStore_iff hs () hnull hnull).2 (refTo 0) hlink (by decide)⟩

/-- A node that only a cell refers to. -/
def onlyStored : List (Call Unit Unit) := [.newNode (), .storeRef () (some 0), .releaseRef 0]

/-- What is seen of a node: its count, the number of terminated nodes and the free list. -/
structure Seen where
  count : ℕ
  terminated : ℕ
  freeList : List Addr
  deriving DecidableEq

/-- What is seen of a node in a state. -/
def seen (q : Counted Unit Unit) (n : Addr) : Seen := ⟨refcount q n, q.terminated.length, q.freeList⟩

/-- Taking away the last reference with `compare_and_swap_ref` leaves a node whose count is zero
and that is not terminated. -/
theorem swap_keeps_last_node : ∃ s os,
    runSteps Session.step (Session.start 0 fun _ => some null) onlyStored = some (s, os) ∧
    seen s.rc 0 = ⟨1, 0, []⟩ ∧
    ((compareAndSwapRef () (some 0) none).run s.rc).map (fun r => (seen r.1 0, r.2)) =
      some (⟨0, 0, []⟩, true) ∧
    ((storeRef s.rounds freeNodePtr () none).run s.rc).map (fun r => seen r.1 0) =
      some ⟨0, 1, []⟩ ∧
    ¬ SwapsLikeStore s.rounds s.rc () (some 0) none := by
  have hcells : (runSteps Session.step (Session.start 0 fun _ => some null) onlyStored).map
      (fun r => (seen r.1.rc 0,
        ((compareAndSwapRef () (some 0) none).run r.1.rc).map (fun r => (seen r.1 0, r.2)),
        ((storeRef r.1.rounds freeNodePtr () none).run r.1.rc).map (fun r => seen r.1 0))) =
      some (⟨1, 0, []⟩, some (⟨0, 0, []⟩, true), some ⟨0, 1, []⟩) := by
    decide
  obtain ⟨⟨s, os⟩, hrun, hcells⟩ := Option.map_eq_some_iff.mp hcells
  simp only [Prod.mk.injEq] at hcells
  obtain ⟨hseen, hswap, hstore⟩ := hcells
  refine ⟨s, os, hrun, hseen, hswap, hstore, ?_⟩
  rintro ⟨q₁, q₂, hswap', hstore', hsame⟩
  rw [hswap'] at hswap
  rw [hstore'] at hstore
  have hkept : q₁.terminated.length = 0 :=
    congrArg (fun r => r.1.terminated) (Option.some.inj hswap)
  have hended : q₂.terminated.length = 1 := congrArg Seen.terminated (Option.some.inj hstore)
  rw [hsame.terminated, hended] at hkept
  exact absurd hkept Nat.one_ne_zero

end RefCnt
end LibHL
