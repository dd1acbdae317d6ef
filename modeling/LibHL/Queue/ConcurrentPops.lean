import Mathlib.Data.Multiset.Filter
import LibHL.Queue.Interference
import LibHL.Queue.Refinement

/-!
# Two threads that pop at the two ends

Every run in which a pop marks an entry for itself only while the other link of the
entry is not marked returns each value at most once.  Without this condition a single
entry can be returned by both threads.
-/

namespace LibHL
namespace Queue

open RefCnt View Prog

variable {V : Type}

/-! ## Steps of the reference counts -/

section Quiet

variable (bound : ℕ)

theorem quiet_put {q : Queue V} {m : Addr} {nd nd' : RefcntNode Addr} (hm : q.nodes m = some nd)
    (hptr : nd.ptr = nd'.ptr) : Quiet q { q with nodes := q.nodes.put m nd' } where
  head := rfl
  tail := rfl
  length := rfl
  history := rfl
  entry := fun _ _ h => h
  node := by
    intro m' nd₁ h
    by_cases heq : m' = m
    · subst heq
      cases (Heap.put_self hm).symm.trans h
      exact ⟨nd, hm, hptr⟩
    · exact ⟨nd₁, (Heap.put_of_ne heq).symm.trans h, rfl⟩
  link := fun _ => Or.inl fun _ => rfl

theorem readField_quiet {β : Type} (m : Addr) (field : RefcntNode Addr → β) :
    Steps (σ := Queue V) Quiet (readField m field) := by
  refine Steps.atomic fun q q' b hf => ?_
  obtain ⟨nd, -, heq⟩ := Option.map_eq_some_iff.mp hf
  cases heq
  exact Quiet.refl q

theorem updateCount_quiet (m : Addr) (f : UInt32 → UInt32) :
    Steps (σ := Queue V) Quiet (updateCount m f) := by
  refine Steps.atomic fun q q' b hf => ?_
  obtain ⟨nd, hnd, heq⟩ := Option.map_eq_some_iff.mp hf
  cases heq
  exact quiet_put hnd rfl

theorem casUpdating_quiet (m : Addr) (old new : Bool) :
    Steps (σ := Queue V) Quiet (casUpdating m old new) := by
  refine Steps.atomic fun q q' b hf => ?_
  obtain ⟨nd, hnd, heq⟩ := Option.map_eq_some_iff.mp hf
  split at heq
  · cases heq
    exact quiet_put hnd rfl
  · cases heq
    exact Quiet.refl q

theorem terminateNode_quiet (m : Addr) : Steps (σ := Queue V) Quiet (terminateNode m) := by
  refine Steps.atomic fun q q' b hf => ?_
  obtain ⟨nd, -, heq⟩ := Option.map_eq_some_iff.mp hf
  cases heq
  exact { Quiet.refl q with }

theorem freeCount_quiet : Steps (σ := Queue V) Quiet freeCount := by
  refine Steps.atomic fun q q' b hf => ?_
  cases hf
  exact Quiet.refl q

theorem readFreeList_quiet : Steps (σ := Queue V) Quiet readFreeList := by
  refine Steps.atomic fun q q' b hf => ?_
  cases hf
  exact { Quiet.refl q with }

theorem queueReusableEntry_quiet (e : Addr) : Steps (σ := Queue V) Quiet
    (Prog.atomic fun q => (queueReusableEntry e q).map fun q => (q, ())) := by
  refine Steps.atomic fun q q' b hf => ?_
  obtain ⟨q₁, hq₁, heq⟩ := Option.map_eq_some_iff.mp hf
  cases heq
  obtain ⟨entries, hfree, heq⟩ := Option.map_eq_some_iff.mp hq₁
  obtain ⟨ent, -, hkill⟩ := Option.map_eq_some_iff.mp hfree
  subst heq hkill
  refine { Quiet.refl q with entry := ?_, link := ?_ }
  · intro e' ent' h
    by_cases heq : e' = e
    · simp [Heap.kill_apply, heq] at h
    · simpa [Heap.kill_apply, heq] using h
  · intro e'
    by_cases heq : e' = e
    · refine Or.inr fun d => ?_
      cases d <;> simp [heq]
    · refine Or.inl fun d => ?_
      cases d <;> simp [heq]

theorem recycleNode_quiet (m : Addr) : Steps (σ := Queue V) Quiet (recycleNode m) := by
  refine Steps.atomic fun q q' b hf => ?_
  split at hf
  · cases hf
    exact { Quiet.refl q with }
  · obtain ⟨nodes, hfree, heq⟩ := Option.map_eq_some_iff.mp hf
    obtain ⟨nd, -, hkill⟩ := Option.map_eq_some_iff.mp hfree
    cases heq
    subst hkill
    refine { Quiet.refl q with node := ?_ }
    intro m' nd' h
    by_cases heq : m' = m
    · simp [Heap.kill_apply, heq] at h
    · exact ⟨nd', by simpa [Heap.kill_apply, heq] using h, rfl⟩

theorem gcLoop_quiet (limit n : ℕ) :
    Steps (σ := Queue V) Quiet (gcLoop queueReusableEntry limit n) := by
  induction n with
  | zero => exact Steps.stop
  | succ n ih =>
      rw [gcLoop]
      refine freeCount_quiet.bind fun c => ?_
      split
      · refine readFreeList_quiet.bind fun r => ?_
        cases r with
        | none => exact Steps.pure ()
        | some m =>
            refine (readField_quiet m _).bind fun ptr => ?_
            refine (queueReusableEntry_quiet ptr).bind fun _ => ?_
            exact (recycleNode_quiet m).bind fun _ => ih
      · exact Steps.pure ()

theorem release_quiet (m : Addr) : Steps (σ := Queue V) Quiet (release bound m) := by
  have hgc : Steps (σ := Queue V) Quiet (gcIfDue bound queueReusableEntry) := by
    refine freeCount_quiet.bind fun c => ?_
    split
    · exact gcLoop_quiet _ _
    · exact Steps.pure ()
  have hflagged : Steps (σ := Queue V) Quiet (releaseFlagged m) := by
    refine (readField_quiet m _).bind fun c => ?_
    split
    · exact terminateNode_quiet m
    · exact (casUpdating_quiet m _ _).bind fun _ => Steps.pure ()
  have hrest : Steps (σ := Queue V) Quiet (do
      if ← casUpdating m false true then
        releaseFlagged m
      gcIfDue bound queueReusableEntry) := by
    refine (casUpdating_quiet m _ _).bind fun b => ?_
    cases b with
    | false => exact hgc
    | true => exact hflagged.bind fun _ => hgc
  refine (readField_quiet m _).bind fun c => ?_
  split
  · exact (updateCount_quiet m _).bind fun _ => hrest
  · exact hrest

theorem derefNode_quiet (m : Addr) : Steps (σ := Queue V) Quiet (derefNode m) := by
  refine (readField_quiet m _).bind fun u => ?_
  split
  · refine (readField_quiet m _).bind fun c => ?_
    split
    · exact Steps.pure none
    · exact (updateCount_quiet m _).bind fun _ => Steps.pure _
  · exact (updateCount_quiet m _).bind fun _ => Steps.pure _

theorem retain_quiet (m : Addr) : Steps (σ := Queue V) Quiet (retain m) :=
  (derefNode_quiet m).bind fun _ => Steps.pure ()

end Quiet

/-! ## Reading -/

section Pops

variable {bound : ℕ} {v : View V} {es : List Addr} {d : Dir} {h : PopHistory V}
  {dead : List (Addr × Dir)}

theorem readNode_triple {e : Addr} (he : e ∈ chain v es) :
    Triple (spec v es d) (Knows d h dead) (readNode e)
      (fun m q => m = v.node e ∧ Knows d h dead q) := by
  refine quiet_atomic fun q q' m hinv hf => ?_
  obtain ⟨ent, hent, heq⟩ := Option.map_eq_some_iff.mp hf
  cases heq
  exact ⟨Quiet.refl q, congrArg QueueEntry.node (hinv.entry e he ent hent)⟩

theorem readValue_triple {e : Addr} (he : e ∈ chain v es) :
    Triple (spec v es d) (Knows d h dead) (readValue e)
      (fun x q => x = v.value e ∧ Knows d h dead q) := by
  refine quiet_atomic fun q q' m hinv hf => ?_
  obtain ⟨ent, hent, heq⟩ := Option.map_eq_some_iff.mp hf
  cases heq
  exact ⟨Quiet.refl q, congrArg QueueEntry.value (hinv.entry e he ent hent)⟩

theorem readEnd_triple (d' : Dir) :
    Triple (spec v es d) (Knows d h dead) (readEnd d')
      (fun e q => e = v.sentinel d' ∧ Knows d h dead q) := by
  cases d' with
  | next =>
      refine quiet_atomic fun q q' m hinv hf => ?_
      cases hf
      exact ⟨Quiet.refl q, hinv.head⟩
  | prev =>
      refine quiet_atomic fun q q' m hinv hf => ?_
      cases hf
      exact ⟨Quiet.refl q, hinv.tail⟩

theorem readLink_triple (e : Addr) (d' : Dir) :
    Triple (spec v es d) (Knows d h dead) (readLink (e, d'))
      (fun r q => (∀ m, r.node = some m → ∃ t, m = v.node t ∧ Ahead (chain v es) d' e t) ∧
        Knows d h dead q) := by
  refine quiet_atomic fun q q' r hinv hf => ?_
  obtain ⟨r', hr', heq⟩ := Option.map_eq_some_iff.mp hf
  cases heq
  exact ⟨Quiet.refl q, fun m hm => hinv.link e d' r m hr' hm⟩

theorem getNodePtr_triple {t : Addr} (ht : t ∈ chain v es) :
    Triple (spec v es d) (Knows d h dead) (getNodePtr (some (v.node t)))
      (fun r q => r = some t ∧ Knows d h dead q) := by
  have hread : Triple (spec v es d) (Knows d h dead) (readField (v.node t) RefcntNode.ptr)
      (fun p q => p = t ∧ Knows d h dead q) := by
    refine quiet_atomic fun q q' p hinv hf => ?_
    obtain ⟨nd, hnd, heq⟩ := Option.map_eq_some_iff.mp hf
    cases heq
    exact ⟨Quiet.refl q, hinv.node t ht nd hnd⟩
  refine hread.bind fun p => ?_
  exact Triple.ret fun q hq => ⟨congrArg some hq.1, hq.2⟩

/-- A reference taken from a link leads on. -/
theorem derefLink_triple (e : Addr) (d' : Dir) (skip : Bool) :
    Triple (spec v es d) (Knows d h dead) (derefLinkInternal (e, d') skip)
      (fun r q => (∀ m, r = some m → ∃ t, m = v.node t ∧ Ahead (chain v es) d' e t) ∧
        Knows d h dead q) := by
  have hnone : Triple (spec v es d) (Knows d h dead) (pure none : Prog (Queue V) (Option Addr))
      (fun r q => (∀ m, r = some m → ∃ t, m = v.node t ∧ Ahead (chain v es) d' e t) ∧
        Knows d h dead q) :=
    Triple.ret fun q hq => ⟨by rintro m ⟨⟩, hq⟩
  refine (readLink_triple e d').bind fun r => Triple.of_fact fun hr => ?_
  split
  · exact hnone
  · cases hnode : r.node with
    | none => exact hnone
    | some m =>
        have hsome : Triple (spec v es d) (Knows d h dead)
            (do updateCount m (· + 1); pure (some m))
            (fun r q => (∀ m, r = some m → ∃ t, m = v.node t ∧ Ahead (chain v es) d' e t) ∧
              Knows d h dead q) := by
          refine (quiet_triple (updateCount_quiet m _)).bind fun _ => ?_
          exact Triple.ret fun q hq => ⟨by rintro m' ⟨⟩; exact hr m hnode, hq⟩
        refine (quiet_triple (readField_quiet m _)).bind fun u => ?_
        split
        · refine (quiet_triple (readField_quiet m _)).bind fun c => ?_
          split
          · exact hnone
          · exact hsome
        · exact hsome

/-- The same for the entry that the reference leads to. -/
theorem derefEntry_triple (e : Addr) (d' : Dir) (skip : Bool) :
    Triple (spec v es d) (Knows d h dead)
      (do getNodePtr (← derefLinkInternal (e, d') skip))
      (fun r q => (∀ t, r = some t → Ahead (chain v es) d' e t) ∧ Knows d h dead q) := by
  refine (derefLink_triple e d' skip).bind fun r => Triple.of_fact fun hr => ?_
  cases r with
  | none => exact Triple.ret fun q hq => ⟨by rintro t ⟨⟩, hq⟩
  | some m =>
      obtain ⟨t, rfl, ht⟩ := hr m rfl
      refine (getNodePtr_triple ht.2.1).weaken (fun q hq => hq) fun r q hq => ?_
      exact ⟨by rintro t' rfl; cases hq.1; exact ht, hq.2⟩

/-! ## Writing links -/

/-- A compare-and-swap of a link by one that keeps the invariant. -/
theorem casLink_triple {e : Addr} {d' : Dir} {old new : Ref}
    (hok : ∀ q, Inv v es q → Knows d h dead q → q.links (e, d') = some old →
      Inv v es (relinked q (e, d') new) ∧
      (Dead q (e, d') → new.mark = true ∨ new.node = none)) :
    Triple (spec v es d) (Knows d h dead) (casLink (e, d') old new)
      (fun b q => (b = true → new.mark = true ∨ new.node = none → Dead q (e, d')) ∧
        Knows d h dead q) := by
  refine Triple.atomic knows_stable fun q q' b hinv hk hf _ => ?_
  obtain ⟨r, hr, heq⟩ := Option.map_eq_some_iff.mp hf
  split at heq
  · rename_i hold
    subst hold
    cases heq
    obtain ⟨hinv', hdead⟩ := hok q hinv hk hr
    have hleaves : ∀ d'', Leaves d'' q (relinked q (e, d') new) :=
      fun _ => ⟨rfl, fun a ha => dead_relinked hdead ha⟩
    refine ⟨hinv', hleaves (back d), fun _ hnew r' hr' => ?_, hk.of_leaves (hleaves d)⟩
    simp only [Function.update_self] at hr'
    cases hr'
    exact hnew
  · cases heq
    exact ⟨hinv, (Quiet.refl q).leaves (back d), by rintro ⟨⟩, hk⟩

/-- A live link gets another target that is ahead. -/
theorem casLink_live_triple {e t : Addr} {d' : Dir} {m : Addr} (ht : Ahead (chain v es) d' e t) :
    Triple (spec v es d) (Knows d h dead) (casLink (e, d') (refTo m) (refTo (v.node t)))
      (fun _ => Knows d h dead) := by
  refine (casLink_triple fun q hinv hk hlink => ?_).weaken (fun _ hq => hq) fun _ _ hq => hq.2
  have hlive : ¬ Dead q (e, d') := by
    intro hdead
    rcases hdead _ hlink with hm | hm <;> cases hm
  refine ⟨hinv.relinked ?_ (fun hdead => absurd hdead hlive) fun he => ?_,
    fun hdead => absurd hdead hlive⟩
  · rintro m' ⟨⟩
    exact ⟨t, rfl, ht⟩
  · exact absurd (hinv.dead_of_claimed he) hlive

theorem markLink_triple {e : Addr} {d' : Dir} {link : Ref} :
    Triple (spec v es d) (Knows d h dead) (casLink (e, d') link (markOn link))
      (fun b q => (b = true → Dead q (e, d')) ∧ Knows d h dead q) := by
  refine (casLink_triple fun q hinv hk hlink => ?_).weaken (fun _ hq => hq)
    fun b q hq => ⟨fun hb => hq.1 hb (Or.inl rfl), hq.2⟩
  refine ⟨hinv.relinked ?_ (fun _ => Or.inl rfl) fun _ => Or.inl rfl, fun _ => Or.inl rfl⟩
  intro m hm
  exact hinv.link e d' link m hlink hm

/-- A link of an entry with two dead links becomes null. -/
theorem clearLink_triple {e : Addr} {d' : Dir} {link : Ref} (he : (e, back d') ∈ dead) :
    Triple (spec v es d) (Knows d h dead) (casLink (e, d') link ⟨none, false⟩)
      (fun _ => Knows d h dead) := by
  refine (casLink_triple fun q hinv hk hlink => ?_).weaken (fun _ hq => hq) fun _ _ hq => hq.2
  refine ⟨hinv.relinked ?_ (fun _ => Or.inr rfl) fun _ => Or.inr ⟨rfl, hk.2 _ he⟩,
    fun _ => Or.inr rfl⟩
  rintro m ⟨⟩

theorem claim_triple {e : Addr} {link : Ref} (he : e ∈ es) (hlink : link.node ≠ none) :
    Triple (spec v es d) (Knows d h dead) (claim d e link)
      (fun b => if b = true then Knows d (claimed e h) [(e, d)] else Knows d h dead) := by
  refine Triple.atomic knows_stable fun q q' b hinv hk hf hcond => ?_
  obtain ⟨r, hr, heq⟩ := Option.map_eq_some_iff.mp hf
  split at heq
  · rename_i hold
    subst hold
    cases heq
    have hlive : ¬ Dead q (e, d) := by
      intro hdead
      rcases hdead _ hr with hm | hm
      · cases hm
      · exact hlink hm
    have hback : ∀ r, q.links (e, back d) = some r → r.mark = false :=
      hcond e (by rw [record_self]; simp [claimed])
    have hnew := hinv.not_claimed hlive hback
    have hinv₁ : Inv v es (relinked q (e, d) (markOn link)) := by
      refine hinv.relinked (fun m hm => ?_) (fun _ => Or.inl rfl) fun _ => Or.inl rfl
      exact hinv.link e d _ m hr hm
    have hmarked : Marked (relinked q (e, d) (markOn link)) (e, d) :=
      ⟨markOn link, Function.update_self _ _ _, rfl⟩
    refine ⟨hinv₁.claim he hmarked hnew, ⟨record_of_ne (back_ne d) _ _, ?_⟩, ?_⟩
    · intro a ha
      exact dead_relinked (fun _ => Or.inl rfl) ha
    · rw [if_pos rfl]
      refine ⟨?_, ?_⟩
      · rw [record_self, hk.1]
      · intro a ha
        rw [List.mem_singleton] at ha
        subst ha
        exact hmarked.dead
  · cases heq
    exact ⟨hinv, (Quiet.refl q).leaves (back d), hk⟩

/-! ## Pops -/

/-- The loop that marks the other link of an entry leaves a dead link. -/
def KillsRest (v : View V) (es : List Addr) (d : Dir)
    (markRest : Addr → ℕ → Prog (Queue V) Unit) : Prop :=
  ∀ e n h dead, Triple (spec v es d) (Knows d h dead) (markRest e n)
    (fun _ => Knows d h ((e, back d) :: dead))

theorem Knows.cons {q : Queue V} {a : Addr × Dir} (hk : Knows d h dead q) (ha : Dead q a) :
    Knows d h (a :: dead) q := by
  refine ⟨hk.1, fun b hb => ?_⟩
  rcases List.mem_cons.mp hb with rfl | hb
  · exact ha
  · exact hk.2 b hb

theorem markPrev_killsRest : KillsRest v es .next markPrev := by
  intro e n h dead
  induction n with
  | zero => exact Triple.stop
  | succ n ih =>
      rw [markPrev]
      refine (readLink_triple e .prev).bind fun link => Triple.of_fact fun _ => ?_
      split
      · exact ih
      · refine markLink_triple.bind fun b => ?_
        cases b with
        | false => exact ih.weaken (fun _ hq => hq.2) fun _ _ hq => hq
        | true => exact Triple.ret fun q hq => hq.2.cons (hq.1 rfl)

theorem markNext_killsRest : KillsRest v es .prev markNext := by
  intro e n h dead
  induction n with
  | zero => exact Triple.stop
  | succ n ih =>
      rw [markNext]
      refine (readLink_triple e .next).bind fun link => Triple.of_fact fun _ => ?_
      refine markLink_triple.bind fun b => ?_
      cases b with
      | false => exact ih.weaken (fun _ hq => hq.2) fun _ _ hq => hq
      | true => exact Triple.ret fun q hq => hq.2.cons (hq.1 rfl)

/-- Give back the reference to an entry of the chain. -/
theorem releaseEntry_triple {e : Addr} (he : e ∈ chain v es) :
    Triple (spec v es d) (Knows d h dead) (do release bound (← readNode e))
      (fun _ => Knows d h dead) :=
  (readNode_triple he).bind fun m => Triple.of_fact fun _ => quiet_triple (release_quiet bound m)

theorem bypass_triple (hnodup : (chain v es).Nodup) {e : Addr} (he : e ∈ chain v es) (n : ℕ)
    (previous : Option Addr) (hprevious : ∀ p, previous = some p → p ∈ chain v es) :
    Triple (spec v es d) (Knows d h dead) (bypass bound d e (v.sentinel d) n previous)
      (fun t q => Ahead (chain v es) d e t ∧ Knows d h dead q) := by
  induction n generalizing previous with
  | zero => exact Triple.stop
  | succ n ih =>
      have hround : Triple (spec v es d) (Knows d h dead)
          (bypass bound d e (v.sentinel d) (n + 1) none)
          (fun t q => Ahead (chain v es) d e t ∧ Knows d h dead q) := by
        refine (derefEntry_triple e d false).bind_then fun r => Triple.of_fact fun hr => ?_
        cases r with
        | none => exact ih none (by rintro p ⟨⟩)
        | some t =>
            have ht := hr t rfl
            refine (readNode_triple he).bind fun expected => Triple.of_fact fun _ => ?_
            refine (readNode_triple (sentinel_mem_chain d)).bind fun new =>
              Triple.of_fact fun hnew => ?_
            subst hnew
            have hback : Ahead (chain v es) (back d) t (v.sentinel d) :=
              (sentinel_ahead hnodup ht.2.1 (ht.ne_sentinel hnodup)).swap
            refine (casLink_live_triple hback).bind fun b => ?_
            cases b with
            | true => exact Triple.ret fun q hq => ⟨ht, hq⟩
            | false => exact ih (some t) (by rintro p ⟨⟩; exact ht.2.1)
      cases previous with
      | none => exact hround
      | some p =>
          exact (releaseEntry_triple (hprevious p rfl)).bind_then fun _ => hround

/-- What a pop does with an entry it has claimed. -/
theorem unlink_triple (hnodup : (chain v es).Nodup)
    {markRest : Addr → ℕ → Prog (Queue V) Unit} (hmark : KillsRest v es d markRest) {e : Addr}
    (he : e ∈ es) :
    Triple (spec v es d) (Knows d h dead) (unlink bound d markRest e (v.sentinel d))
      (fun x q => x = v.value e ∧ Knows d h ((e, back d) :: dead) q) := by
  have he' : e ∈ chain v es := by simp [chain, he]
  have hs : v.sentinel d ∈ chain v es := sentinel_mem_chain d
  rw [unlink]
  refine (hmark e bound h dead).bind fun _ => ?_
  refine (bypass_triple hnodup he' bound none (by rintro p ⟨⟩)).bind fun t =>
    Triple.of_fact fun ht => ?_
  refine (releaseEntry_triple he').bind_then fun _ => ?_
  refine (readNode_triple hs).bind fun m => Triple.of_fact fun _ => ?_
  refine (quiet_triple (retain_quiet m)).bind fun _ => ?_
  refine (readNode_triple he').bind fun expected => Triple.of_fact fun _ => ?_
  refine (readNode_triple ht.2.1).bind fun new => Triple.of_fact fun hnew => ?_
  subst hnew
  have hlast : Triple (spec v es d) (Knows d h ((e, back d) :: dead)) (do
      release bound (← readNode t)
      let value ← readValue e
      release bound (← readNode e)
      pure value) (fun x q => x = v.value e ∧ Knows d h ((e, back d) :: dead) q) := by
    refine (releaseEntry_triple ht.2.1).bind_then fun _ => ?_
    refine (readValue_triple he').bind fun x => Triple.of_fact fun hx => ?_
    refine (releaseEntry_triple he').bind_then fun _ => ?_
    exact Triple.ret fun q hq => ⟨hx, hq⟩
  have hahead := sentinel_ahead hnodup ht.2.1 (ht.ne_sentinel hnodup)
  refine (casLink_live_triple hahead).bind fun b => ?_
  cases b with
  | false => exact hlast
  | true =>
      refine (releaseEntry_triple he').bind_then fun _ => ?_
      refine (readNode_triple ht.2.1).bind fun m => Triple.of_fact fun _ => ?_
      exact (quiet_triple (retain_quiet m)).bind fun _ => hlast

/-- What a thread knows after the loop of a pop. -/
def Popped (v : View V) (es : List Addr) (d : Dir) (h : PopHistory V) :
    Option (Addr × Option V) → Queue V → Prop
  | none, q => Knows d h [] q
  | some (e, x), q => (e ∈ es ∧ x = v.value e) ∧
      Knows d (claimed e h) [(e, back d), (e, d)] q

theorem popLoop_triple (hnodup : (chain v es).Nodup)
    {markRest : Addr → ℕ → Prog (Queue V) Unit} (hmark : KillsRest v es d markRest) (n : ℕ) :
    Triple (spec v es d) (Knows d h []) (popLoop bound d markRest (v.sentinel d) n)
      (Popped v es d h) := by
  induction n with
  | zero => exact Triple.stop
  | succ n ih =>
      rw [popLoop]
      refine (derefLink_triple _ _ _).bind fun entryNode => Triple.of_fact fun hr => ?_
      cases entryNode with
      | none => exact Triple.ret fun q hq => hq
      | some m =>
          obtain ⟨e, rfl, hahead⟩ := hr m rfl
          refine (getNodePtr_triple hahead.2.1).bind fun r => Triple.of_fact fun hr' => ?_
          subst hr'
          refine (readEnd_triple (back d)).bind fun s => Triple.of_fact fun hs => ?_
          subst hs
          have hretry : Triple (spec v es d) (Knows d h []) (do
              release bound (← readNode e)
              popLoop bound d markRest (v.sentinel d) n) (Popped v es d h) :=
            (releaseEntry_triple hahead.2.1).bind_then fun _ => ih
          split
          · refine (quiet_triple (release_quiet bound _)).bind fun _ => ?_
            exact Triple.ret fun q hq => hq
          · rename_i hend
            have he : e ∈ es := mem_of_ne_sentinel hahead.2.1 hahead.ne.symm hend
            refine (readLink_triple e (back d)).bind fun r => Triple.of_fact fun _ => ?_
            refine (readNode_triple (sentinel_mem_chain d)).bind fun s => Triple.of_fact fun _ => ?_
            split
            · exact hretry
            · refine (readLink_triple e d).bind fun link => Triple.of_fact fun _ => ?_
              split
              · exact hretry
              · rename_i hlink
                refine (claim_triple he hlink).bind fun b => ?_
                cases b with
                | false => exact hretry
                | true =>
                    refine (unlink_triple hnodup hmark he).bind fun x => ?_
                    exact Triple.ret fun q hq => ⟨⟨he, hq.1⟩, hq.2⟩

/-! ## Threads that pop -/

/-- Add a value to what the pops at one end have returned. -/
def returns (x : V) (h : PopHistory V) : PopHistory V := { h with returned := h.returned ++ [x] }

/-- Pop and record the value that the pop returns. -/
def popAndRecord (bound : ℕ) (d : Dir) (markRest : Addr → ℕ → Prog (Queue V) Unit) :
    Prog (Queue V) Unit := do
  match ← pop bound d markRest with
  | none => pure ()
  | some x => Prog.atomic fun q => some ({ q with ext := record d (returns x) q.ext }, ())

/-- A thread that pops a number of times. -/
def popper (bound : ℕ) (d : Dir) (markRest : Addr → ℕ → Prog (Queue V) Unit) :
    ℕ → Prog (Queue V) Unit
  | 0 => pure ()
  | n + 1 => do
      popAndRecord bound d markRest
      popper bound d markRest n

/-- The history of a thread between pops. -/
def Between (v : View V) (h : PopHistory V) : Prop :=
  h.decrements = h.claims.length ∧ h.returned.map some = h.claims.map v.value

/-- A decrement after a claim finds a length that is not zero. -/
theorem decrementLength_triple (hdec : h.decrements < h.claims.length) :
    Triple (spec v es d) (Knows d h dead) (decrementLength d)
      (fun _ => Knows d (decremented h) dead) := by
  refine Triple.atomic knows_stable fun q q' b hinv hk hf _ => ?_
  obtain ⟨hhist, hdead⟩ := hk
  subst hhist
  have hpos := hinv.length_pos hdec
  cases hf
  rw [if_neg (Nat.ne_of_gt hpos)]
  refine ⟨?_, ⟨record_of_ne (back_ne d) _ _, fun _ ha => ha⟩, record_self _ _ _, hdead⟩
  refine hinv.record rfl ?_ hdec (hinv.returned d)
  show q.ext.length - 1 + ((q.ext.history d).decrements + 1) = _
  omega

/-- The end of a pop. -/
theorem clear_triple {e : Addr} {d' : Dir} (he : (e, back d') ∈ dead) :
    Triple (spec v es d) (Knows d h dead) (store bound (e, d') none)
      (fun _ => Knows d h dead) := by
  have hexchange : ∀ n, Triple (spec v es d) (Knows d h dead)
      (exchangeLink (e, d') ⟨none, false⟩ n) (fun _ => Knows d h dead) := by
    intro n
    induction n with
    | zero => exact Triple.stop
    | succ n ih =>
        rw [exchangeLink]
        refine (readLink_triple e d').bind fun old => Triple.of_fact fun _ => ?_
        refine (clearLink_triple he).bind fun b => ?_
        cases b with
        | false => exact ih
        | true => exact Triple.ret fun q hq => hq
  refine (hexchange bound).bind fun old => ?_
  show Triple _ _ (if old = null then _ else _) _
  split
  · exact Triple.ret fun q hq => hq
  · rw [releaseOld]
    split
    · exact Triple.stop
    · exact quiet_triple (release_quiet bound _)

/-- What a thread knows after a pop. -/
def PopDone (v : View V) (d : Dir) (h : PopHistory V) : Option V → Queue V → Prop
  | none, q => Knows d h [] q
  | some x, q => ∃ e, v.value e = some x ∧ Knows d (decremented (claimed e h)) [] q

theorem pop_triple (hnodup : (chain v es).Nodup) (hvalue : ∀ e ∈ es, v.value e ≠ none)
    {markRest : Addr → ℕ → Prog (Queue V) Unit} (hmark : KillsRest v es d markRest)
    (hh : Between v h) :
    Triple (spec v es d) (Knows d h []) (pop bound d markRest) (PopDone v d h) := by
  rw [pop]
  refine (readEnd_triple d).bind fun s => Triple.of_fact fun hs => ?_
  subst hs
  refine (popLoop_triple hnodup hmark bound).bind fun r => ?_
  cases r with
  | none => exact Triple.ret fun q hq => hq
  | some r =>
      obtain ⟨e, x⟩ := r
      refine Triple.of_fact fun hfacts => ?_
      obtain ⟨he, hx⟩ := hfacts
      have he' : e ∈ chain v es := by simp [chain, he]
      have hboth : ∀ d', (e, d') ∈ [(e, back d), (e, d)] := by
        intro d'
        cases d <;> cases d' <;> simp [back]
      have hlt : (claimed e h).decrements < (claimed e h).claims.length := by
        show h.decrements < (h.claims ++ [e]).length
        rw [hh.1, List.length_append, List.length_singleton]
        exact Nat.lt_succ_self _
      refine (decrementLength_triple hlt).bind fun _ => ?_
      refine (clear_triple (hboth _)).bind fun _ => ?_
      refine (clear_triple (hboth _)).bind fun _ => ?_
      refine (releaseEntry_triple he').bind_then fun _ => ?_
      refine Triple.ret fun q hq => ?_
      cases x with
      | none => exact absurd hx.symm (hvalue e he)
      | some x => exact ⟨e, hx.symm, hq.1, by rintro a ⟨⟩⟩

theorem popAndRecord_triple (hnodup : (chain v es).Nodup) (hvalue : ∀ e ∈ es, v.value e ≠ none)
    {markRest : Addr → ℕ → Prog (Queue V) Unit} (hmark : KillsRest v es d markRest)
    (hh : Between v h) :
    Triple (spec v es d) (Knows d h []) (popAndRecord bound d markRest)
      (fun _ q => Between v (q.ext.history d)) := by
  refine (pop_triple hnodup hvalue hmark hh).bind fun r => ?_
  cases r with
  | none => exact Triple.ret fun q hq => hq.1 ▸ hh
  | some x =>
      refine Triple.atomic ?_ fun q q' b hinv hq hf _ => ?_
      · rintro q q' hrely - ⟨e, hx, hk⟩
        exact ⟨e, hx, hk.of_leaves hrely⟩
      · obtain ⟨e, hx, hhist, -⟩ := hq
        cases hf
        have hdone : Between v (returns x (q.ext.history d)) := by
          rw [hhist]
          refine ⟨?_, ?_⟩
          · show h.decrements + 1 = (h.claims ++ [e]).length
            rw [hh.1, List.length_append, List.length_singleton]
          · show (h.returned ++ [x]).map some = (h.claims ++ [e]).map v.value
            rw [List.map_append, List.map_append, hh.2, List.map_singleton, List.map_singleton, hx]
        refine ⟨?_, ⟨record_of_ne (back_ne d) _ _, fun _ ha => ha⟩, ?_⟩
        · have hrec := hinv.record (d := d) (f := returns x) rfl rfl (hinv.decrements_le d) ?_
          · exact hrec
          · rw [hdone.2]
            exact List.prefix_rfl
        · show Between v ((record d (returns x) q.ext).history d)
          rw [record_self]
          exact hdone

theorem popper_keeps (hnodup : (chain v es).Nodup) (hvalue : ∀ e ∈ es, v.value e ≠ none)
    {markRest : Addr → ℕ → Prog (Queue V) Unit} (hmark : KillsRest v es d markRest) (n : ℕ) :
    Triple (spec v es d) (fun q => Between v (q.ext.history d)) (popper bound d markRest n)
      (fun _ _ => True) := by
  induction n with
  | zero => exact Triple.ret fun _ _ => trivial
  | succ n ih =>
      intro q hq
      have hpop : Triple (spec v es d) (Knows d (q.ext.history d) [])
          (popAndRecord bound d markRest) (fun _ q => Between v (q.ext.history d)) :=
        popAndRecord_triple hnodup hvalue hmark hq
      exact (hpop.bind fun _ => ih) q ⟨rfl, by rintro a ⟨⟩⟩

end Pops

/-! ## Runs -/

/-- The queue after a run of a single thread. -/
def afterOps (bound : ℕ) (ops : List (Op V)) : Option (Queue V) :=
  ((queueInit bound).run blank).bind fun r => (runSteps (step bound) r.1 ops).map Prod.fst

/-- The queue with an empty history of pops. -/
def forgetPops (q : Queue V) : Queue V :=
  { q with ext := { q.ext with history := fun _ => ⟨[], 0, []⟩ } }

/-- One thread that pops at the left end, and one that pops at the right end. -/
def popThreads (bound : ℕ) (q : Queue V) (left right : ℕ) : Threads Dir (Queue V) where
  state := forgetPops q
  progs
    | .next => popper bound .next markPrev left
    | .prev => popper bound .prev markNext right

section Runs

variable {v : View V} {es : List Addr} {vals : List V}

theorem ahead_of_rests (hr : Rests v .next es vals) {e t : Addr} {d : Dir} (he : e ∈ v.live)
    (ht : (v.link (e, d)).target = some t) : Ahead (chain v es) d e t := by
  have hnodup : (chain v es).Nodup := hr.nodup
  have hchain : (chain v es).IsChain (Linked v.link .next) := hr.chained
  have hmem : e ∈ chain v es := (hr.live e).mp he
  have hstep : ∀ i (hi : i + 1 < (chain v es).length),
      Linked v.link .next (chain v es)[i] (chain v es)[i + 1] ∧
      (chain v es).idxOf (chain v es)[i] = i ∧ (chain v es).idxOf (chain v es)[i + 1] = i + 1 := by
    intro i hi
    exact ⟨List.isChain_iff_getElem.mp hchain i hi, hnodup.idxOf_getElem i (by omega),
      hnodup.idxOf_getElem (i + 1) hi⟩
  have hidx := List.idxOf_lt_length_of_mem hmem
  have hget : (chain v es)[(chain v es).idxOf e] = e := List.getElem_idxOf hidx
  cases d with
  | next =>
      have hi : (chain v es).idxOf e + 1 < (chain v es).length := by
        by_contra hge
        have hlast : e = v.tail := by
          have hlen : (chain v es).length = (v.head :: es).length + 1 := by simp [chain]
          have heq : (chain v es).idxOf e = (v.head :: es).length := by omega
          rw [← hget]
          simp only [heq]
          exact List.getElem_concat_length rfl _
        have houter : v.link (e, .next) = noLink := hlast ▸ hr.outer .prev
        rw [houter] at ht
        cases ht
      obtain ⟨hlinked, -, hnext⟩ := hstep _ hi
      rw [hget] at hlinked
      rw [hlinked.1] at ht
      cases ht
      refine ⟨hmem, List.getElem_mem _, ?_⟩
      show (chain v es).idxOf e < _
      rw [hnext]
      exact Nat.lt_succ_self _
  | prev =>
      cases hi : (chain v es).idxOf e with
      | zero =>
          have hfirst : e = v.head := by
            rw [← hget]
            simp only [hi]
            rfl
          have houter : v.link (e, .prev) = noLink := hfirst ▸ hr.outer .next
          rw [houter] at ht
          cases ht
      | succ j =>
          obtain ⟨hlinked, hj, -⟩ := hstep j (by omega)
          have hget' : (chain v es)[j + 1] = e := by simpa only [hi] using hget
          rw [hget'] at hlinked
          rw [show v.link (e, .prev) = _ from hlinked.2] at ht
          cases ht
          refine ⟨hmem, List.getElem_mem _, ?_⟩
          show (chain v es).idxOf _ < (chain v es).idxOf e
          rw [hj, hi]
          exact Nat.lt_succ_self _

/-- The invariant holds before the first pop. -/
theorem inv_forgetPops {q : Queue V} (hq : Shows q v) (hr : Rests v .next es vals) :
    Inv v es (forgetPops q) where
  head := hq.head
  tail := hq.tail
  entry := by
    intro e he ent hent
    exact Option.some.inj (hent.symm.trans (hq.entry e ((hr.live e).mpr he)))
  node := by
    intro e he nd hnd
    rw [Option.some.inj (hnd.symm.trans (hq.node e ((hr.live e).mpr he)))]
  link := by
    intro e d r m hlink hm
    have hlink' : q.links (e, d) = some r := hlink
    cases hent : q.ext.entries e with
    | none =>
        rw [hq.absent e d hent] at hlink'
        cases hlink'
    | some ent =>
        rcases hq.rest e ent hent with he | hfree
        · cases (hq.link e he d).symm.trans hlink'
          obtain ⟨t, ht, rfl⟩ := Option.map_eq_some_iff.mp hm
          exact ⟨t, rfl, ahead_of_rests hr he ht⟩
        · obtain ⟨nd, hnd⟩ := hq.retired _ hfree
          obtain ⟨nd', hnd', rfl⟩ := hq.owner e ent hent
          cases hnd.node.symm.trans hnd'
          cases (hnd.links d).symm.trans hlink'
          cases hm
  claim_mem := by rintro d e ⟨⟩
  claims_nodup := List.nodup_nil
  claimed := by rintro d e ⟨⟩
  length := by
    show q.ext.length + 0 + 0 = es.length
    rw [hq.length, hr.length]
    rfl
  decrements_le := fun _ => Nat.le_refl 0
  returned := fun _ => List.nil_prefix

/-- The values that the threads have returned are among those the queue held. -/
theorem Inv.returned_le {q : Queue V} (h : Inv v es q) (hvals : es.map v.value = vals.map some) :
    (((q.ext.history .next).returned ++ (q.ext.history .prev).returned : List V) : Multiset V) ≤
      vals := by
  refine (Multiset.map_le_map_iff (Option.some_injective V)).mp ?_
  rw [Multiset.map_coe, Multiset.map_coe, ← hvals, List.map_append, Multiset.coe_le]
  have hclaims : ((q.ext.history .next).claims ++ (q.ext.history .prev).claims).Subperm es := by
    refine List.subperm_of_subset h.claims_nodup fun e he => ?_
    rcases List.mem_append.mp he with he | he
    · exact h.claim_mem _ e he
    · exact h.claim_mem _ e he
  have hmap : ((q.ext.history .next).claims.map v.value ++
      (q.ext.history .prev).claims.map v.value).Subperm (es.map v.value) := by
    obtain ⟨l, hperm, hsub⟩ := hclaims
    rw [← List.map_append]
    exact ⟨l.map v.value, hperm.map _, hsub.map _⟩
  exact ((h.returned .next).sublist.append (h.returned .prev).sublist).subperm.trans hmap

theorem afterOps_holds {bound : ℕ} (hb : 2 ^ 9 + 2 ≤ bound) {ops : List (Op V)} {q : Queue V}
    (hq : afterOps bound ops = some q) : Holds q .next (refRun dequeStep [] ops).1 := by
  have hpos : 0 < bound := by omega
  obtain ⟨q₀, v₀, hinit, hq₀, hr₀⟩ := queueInit_run (V := V) hpos
  obtain ⟨q', hrun, hholds⟩ := runSteps_refines
    (fun q vals op h _ => step_refines hb q vals op h) ops q₀ [] ⟨v₀, [], hq₀, hr₀⟩
    (stepsMeet_of_forall (fun _ _ => trivial) ops q₀)
  rw [afterOps, hinit, Option.bind_some, hrun] at hq
  cases hq
  exact hholds

/-- In every run of pops at the two ends of a queue in which each entry that a pop marks
for itself has no mark on its other link, every value that the queue held is returned at
most once, and the length is that of the queue less the decrements. -/
theorem pops_return_once (bound : ℕ) (hb : 2 ^ 9 + 2 ≤ bound) (ops : List (Op V)) (q : Queue V)
    (hq : afterOps bound ops = some q) (rounds left right : ℕ) (schedule : List Dir)
    (c : Threads Dir (Queue V)) (os : List Unit)
    (hmeet : StepsMeet Threads.step (Threads.Meets ClaimsUnmarked)
      (popThreads rounds q left right) schedule)
    (hrun : (popThreads rounds q left right).run schedule = some (c, os)) :
    (((c.state.ext.history .next).returned ++ (c.state.ext.history .prev).returned : List V) :
        Multiset V) ≤ (refRun dequeStep [] ops).1 ∧
      queueCount c.state + (c.state.ext.history .next).decrements +
        (c.state.ext.history .prev).decrements = (refRun dequeStep [] ops).1.length := by
  obtain ⟨v, es, hshows, hr⟩ := afterOps_holds hb hq
  have hnodup : (chain v es).Nodup := hr.nodup
  have hvalue : ∀ e ∈ es, v.value e ≠ none := by
    intro e he hnone
    have hmem : none ∈ es.map v.value := hnone ▸ List.mem_map_of_mem he
    rw [hr.value] at hmem
    obtain ⟨x, -, hx⟩ := List.mem_map.mp hmem
    cases hx
  have hkeeps : ∀ d, Keeps (spec v es d) (fun _ _ => True)
      ((popThreads rounds q left right).progs d) (forgetPops q) := by
    intro d
    cases d with
    | next => exact popper_keeps hnodup hvalue markPrev_killsRest left _ ⟨rfl, rfl⟩
    | prev => exact popper_keeps hnodup hvalue markNext_killsRest right _ ⟨rfl, rfl⟩
  have hguar : ∀ i j : Dir, i ≠ j → ∀ s s', Inv v es s → Inv v es s' →
      (spec v es i).guar s s' → (spec v es j).rely s s' := by
    intro i j hij s s' _ _ hg
    have hj : j = back i := by cases i <;> cases j <;> simp_all [back]
    exact hj ▸ hg
  have hinv : Inv v es c.state := (Threads.keeps_of_run (spec v es) (fun _ => rfl)
    (fun _ => rfl) hguar (fun _ _ _ _ _ _ => trivial) schedule _ c os
    (inv_forgetPops hshows hr) hkeeps hmeet hrun).1
  have hlen := congrArg List.length hr.value
  rw [List.length_map, List.length_map] at hlen
  exact ⟨hinv.returned_le hr.value, hlen ▸ hinv.length⟩

end Runs

/-- A queue with one entry. -/
def oneEntry : Queue ℕ := (afterOps 600 [.pushLeft 7]).getD blank

theorem afterOps_oneEntry : afterOps 600 [.pushLeft 7] = some oneEntry := by
  have hsome : (afterOps 600 [.pushLeft (7 : ℕ)]).isSome := by decide +kernel
  obtain ⟨q, hq⟩ := Option.isSome_iff_exists.mp hsome
  rw [oneEntry, hq]
  rfl

/-- The left pop reaches the entry first, and the right pop finds the queue empty. -/
def inTurn : List Dir :=
  List.replicate 68 .next ++ List.replicate 12 .prev ++ List.replicate 14 .next

theorem pops_return_once_inTurn :
    StepsMeet Threads.step (Threads.Meets ClaimsUnmarked) (popThreads 3 oneEntry 1 1) inTurn ∧
    ∃ c os, (popThreads 3 oneEntry 1 1).run inTurn = some (c, os) ∧
      (((c.state.ext.history .next).returned ++ (c.state.ext.history .prev).returned : List ℕ) :
        Multiset ℕ) ≤ [7] ∧
      queueCount c.state + (c.state.ext.history .next).decrements +
        (c.state.ext.history .prev).decrements = 1 := by
  have hmeet : StepsMeet Threads.step (Threads.Meets ClaimsUnmarked) (popThreads 3 oneEntry 1 1)
      inTurn := by
    decide +kernel
  have hsome : ((popThreads 3 oneEntry 1 1).run inTurn).isSome := by decide +kernel
  obtain ⟨⟨c, os⟩, hrun⟩ := Option.isSome_iff_exists.mp hsome
  exact ⟨hmeet, c, os, hrun, pops_return_once 600 (by decide) [.pushLeft 7] oneEntry
    afterOps_oneEntry 3 1 1 inTurn c os hmeet hrun⟩

/-- Both pops look at the entry before either of them marks it. -/
def together : List Dir :=
  List.replicate 9 .next ++ List.replicate 9 .prev ++
    (List.replicate 54 [Dir.next, Dir.prev]).flatten ++ [.next]

/-- Both threads return the one value of the queue, and the length wraps. -/
theorem lastEntry_returned_twice :
    ((popThreads 3 oneEntry 1 1).run together).map (fun r =>
      (queueCount r.1.state, (r.1.state.ext.history .next).returned,
        (r.1.state.ext.history .prev).returned)) = some (2 ^ 64 - 1, [7], [7]) := by
  decide +kernel


end Queue
end LibHL
