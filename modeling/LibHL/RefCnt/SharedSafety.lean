import LibHL.RefCnt.SharedLedger

/-!
# A node is not terminated while a thread holds a reference

Any number of threads, in any order of their steps: what each of them is about to do, and
the ledger that follows from it, are kept by every step.
-/

namespace LibHL
namespace RefCnt
namespace Sharing

open Ledger

variable {ι : Type} [DecidableEq ι] [Fintype ι] {bound : ℕ} {i : ι} {s s' : SharedCnt ι}
  {sites : ι → Site ι} {site : Site ι} {o : Others ι} {q' : Prog (SharedCnt ι) Unit}
  {c c' : Threads ι (SharedCnt ι)}

/-! ## One step -/

theorem Site.advances (hsound : (ledgerAt i s site o).Sound)
    (hfew : (ledgerAt i s site o).refs.card + 1 < 2 ^ 32) (hknows : site.phase.Knows s i)
    (htakes : (site.prog bound i).Takes s q' s') : Advances bound i s site o q' s' := by
  obtain ⟨phase, made, rest⟩ := site
  cases phase with
  | idle =>
      cases rest with
      | nil => exact htakes.elim
      | cons use uses =>
          cases use with
          | create => exact create_advances htakes
          | retain place => exact pick_advances htakes rfl
          | release place =>
              exact drop_advances .count (fun _ => ⟨rfl, rfl, rfl, rfl, rfl⟩)
                (fun _ _ => trivial) rfl (fun _ => rfl) htakes
          | give place peer =>
              exact drop_advances (.hold peer) (fun _ => ⟨rfl, rfl, rfl, rfl, rfl⟩)
                (fun _ _ => trivial) rfl (fun _ => rfl) htakes
  | hold peer node => exact hold_advances htakes
  | test node => exact test_advances hknows htakes
  | read node => exact read_advances hknows htakes
  | raise node => exact raise_advances hsound hfew hknows htakes
  | count node => exact count_advances hsound htakes
  | lower node => exact lower_advances hsound htakes
  | flag node => exact flag_advances htakes
  | look node => exact look_advances htakes
  | terminate node => exact terminate_advances htakes
  | clear node => exact clear_advances hsound htakes
  | due => exact due_advances htakes
  | loop limit rounds => exact loop_advances htakes
  | fetch limit rounds => exact fetch_advances htakes
  | lookUp node limit rounds => exact lookUp_advances htakes
  | free node ptr limit rounds => exact free_advances hknows htakes
  | recycle node limit rounds => exact recycle_advances htakes

/-! ## All threads -/

/-- What the threads other than one have on their way. -/
def others (sites : ι → Site ι) (i : ι) : Others ι where
  held := ∑ j ∈ Finset.univ.erase i, (sites j).phase.held
  owned := ∑ j ∈ Finset.univ.erase i, (sites j).phase.owned
  doomed := ∑ j ∈ Finset.univ.erase i, (sites j).phase.doomed
  full := ∑ j ∈ Finset.univ.erase i, (sites j).phase.full
  empty := ∑ j ∈ Finset.univ.erase i, (sites j).phase.empty
  made := fun j => (sites j).made

/-- The ledger of all threads. -/
def ledgerOf (s : SharedCnt ι) (sites : ι → Site ι) : Ledger Addr (ι × ℕ) where
  ptr := ptrs s.nodes
  count := counts s.nodes
  flag := flags s.nodes
  refs := inHands s + ∑ j, (sites j).phase.held
  owned := ∑ j, (sites j).phase.owned
  doomed := ∑ j, (sites j).phase.doomed
  full := (s.freeList : Multiset Addr) + ∑ j, (sites j).phase.full
  empty := (s.nodePool : Multiset Addr) + ∑ j, (sites j).phase.empty
  used := {p | p.2 < (sites p.1).made}
  terminated := s.terminated
  freed := s.ext.freed

theorem ledgerAt_others (s : SharedCnt ι) (sites : ι → Site ι) (i : ι) :
    ledgerAt i s (sites i) (others sites i) = ledgerOf s sites := by
  have hsum : ∀ f : Phase ι → Multiset Addr, f (sites i).phase +
      ∑ j ∈ Finset.univ.erase i, f (sites j).phase = ∑ j, f (sites j).phase := fun f =>
    Finset.add_sum_erase Finset.univ (fun j => f (sites j).phase) (Finset.mem_univ i)
  refine Ledger.ext rfl rfl rfl (congrArg (inHands s + ·) (hsum Phase.held)) (hsum Phase.owned)
    (hsum Phase.doomed) (congrArg ((s.freeList : Multiset Addr) + ·) (hsum Phase.full))
    (congrArg ((s.nodePool : Multiset Addr) + ·) (hsum Phase.empty)) ?_ rfl rfl
  simp only [ledgerAt, others, ledgerOf, Function.update_eq_self]

theorem ledgerAt_update (s : SharedCnt ι) (sites : ι → Site ι) (i : ι) (site : Site ι) :
    ledgerAt i s site (others sites i) = ledgerOf s (Function.update sites i site) := by
  rw [← ledgerAt_others s (Function.update sites i site) i, Function.update_self]
  have hsum : ∀ f : Phase ι → Multiset Addr, ∑ j ∈ Finset.univ.erase i, f (sites j).phase =
      ∑ j ∈ Finset.univ.erase i, f (Function.update sites i site j).phase := by
    intro f
    refine Finset.sum_congr rfl fun j hj => ?_
    rw [Function.update_of_ne (Finset.ne_of_mem_erase hj)]
  refine Ledger.ext rfl rfl rfl ?_ ?_ ?_ ?_ ?_ ?_ rfl rfl
  · exact congrArg (fun m => inHands s + (site.phase.held + m)) (hsum Phase.held)
  · exact congrArg (site.phase.owned + ·) (hsum Phase.owned)
  · exact congrArg (site.phase.doomed + ·) (hsum Phase.doomed)
  · exact congrArg (fun m => (s.freeList : Multiset Addr) + (site.phase.full + m)) (hsum Phase.full)
  · exact congrArg (fun m => (s.nodePool : Multiset Addr) + (site.phase.empty + m))
      (hsum Phase.empty)
  · simp only [ledgerAt, others]
    congr 1
    funext p
    by_cases hp : p.1 = i
    · simp [hp]
    · simp [hp]

/-- What every step keeps. -/
structure Shares (bound : ℕ) (c : Threads ι (SharedCnt ι)) (sites : ι → Site ι) : Prop where
  prog : ∀ i, c.progs i = (sites i).prog bound i
  knows : ∀ i, (sites i).phase.Knows c.state i
  sound : (ledgerOf c.state sites).Sound

/-- There are fewer than 2^32 references, with those that are on their way. -/
def FewReferences (c : Threads ι (SharedCnt ι)) (_ : ι) : Prop :=
  ∑ i, (c.state.ext.hands i).length + Fintype.card ι + 1 < 2 ^ 32

omit [DecidableEq ι] [Fintype ι] in
theorem card_held_le (phase : Phase ι) : phase.held.card ≤ 1 := by
  cases phase <;> simp [Phase.held]

omit [DecidableEq ι] in
theorem card_refs_le (s : SharedCnt ι) (sites : ι → Site ι) :
    (ledgerOf s sites).refs.card ≤ ∑ i, (s.ext.hands i).length + Fintype.card ι := by
  have hheld : (∑ j, (sites j).phase.held).card ≤ Fintype.card ι := by
    rw [Multiset.card_sum]
    refine (Finset.sum_le_card_nsmul _ _ 1 fun j _ => card_held_le _).trans ?_
    simp
  have hhands : (inHands s).card = ∑ i, (s.ext.hands i).length := by
    rw [inHands, Multiset.card_sum]
    rfl
  simp only [ledgerOf, Multiset.card_add, hhands]
  exact Nat.add_le_add_left hheld _

omit [DecidableEq ι] [Fintype ι] in
/-- The knowledge of a thread that does not move. -/
theorem Phase.Knows.mono {phase : Phase ι} (h : phase.Knows s i)
    (hhands : s.ext.hands i ⊆ s'.ext.hands i)
    (hptr : ∀ n ∈ phase.full, ptrs s'.nodes n = ptrs s.nodes n) : phase.Knows s' i := by
  cases phase with
  | test node => exact hhands h
  | read node => exact hhands h
  | raise node => exact hhands h
  | free node ptr limit rounds =>
      obtain ⟨nd, hn, rfl⟩ := h
      have hsame := hptr node (Multiset.mem_singleton_self node)
      rw [ptrs_eq hn] at hsame
      exact Option.map_eq_some_iff.mp hsame
  | _ => trivial

theorem Shares.step (h : Shares bound c sites) (hfew : FewReferences c i) {u : Unit}
    (hstep : Threads.step c i = some (c', u)) : ∃ sites', Shares bound c' sites' := by
  obtain ⟨htakes, hothers⟩ := Threads.takes_of_step hstep
  rw [h.prog i] at htakes
  have hledger := ledgerAt_others c.state sites i
  have hcard : (ledgerAt i c.state (sites i) (others sites i)).refs.card + 1 < 2 ^ 32 := by
    rw [hledger]
    exact lt_of_le_of_lt (Nat.add_le_add_right (card_refs_le c.state sites) 1) hfew
  obtain ⟨site', hprog, hknows, hhands, hadvance⟩ :=
    Site.advances (o := others sites i) (hledger.symm ▸ h.sound) hcard (h.knows i) htakes
  rw [hledger, ledgerAt_update] at hadvance
  have hptr : ∀ n ∈ (ledgerOf c.state sites).full,
      ptrs c'.state.nodes n = ptrs c.state.nodes n := by
    intro n hn
    rcases hadvance with heq | hmove
    · exact congrArg (fun L => L.ptr n) heq
    · exact hmove.ptr_eq h.sound hn
  refine ⟨Function.update sites i site', fun j => ?_, fun j => ?_, ?_⟩
  · by_cases hj : j = i
    · subst hj
      rw [Function.update_self, hprog]
    · rw [Function.update_of_ne hj, hothers j hj, h.prog j]
  · by_cases hj : j = i
    · subst hj
      rwa [Function.update_self]
    · rw [Function.update_of_ne hj]
      refine (h.knows j).mono (hhands j hj) fun n hn => hptr n ?_
      refine Multiset.mem_add.mpr (Or.inr ?_)
      exact Multiset.mem_sum.mpr ⟨j, Finset.mem_univ j, hn⟩
  · rcases hadvance with heq | hmove
    · exact heq ▸ h.sound
    · exact h.sound.step hmove

theorem shares_startUses (gcThreshold bound : ℕ) (uses : ι → List (Use ι)) :
    Shares bound (startUses gcThreshold bound uses) fun i => ⟨.idle, 0, uses i⟩ where
  prog := fun _ => rfl
  knows := fun _ => trivial
  sound := by
    refine sound_of_none (fun _ => rfl) (fun _ => rfl) ?_ ?_ ?_ ?_ ?_ rfl rfl
    · simp [ledgerOf, inHands, startUses, refcntCreate, Phase.held]
    · simp [ledgerOf, Phase.owned]
    · simp [ledgerOf, Phase.doomed]
    · simp [ledgerOf, startUses, refcntCreate, Phase.full]
    · simp [ledgerOf, startUses, refcntCreate, Phase.empty]

/-! ## Every run -/

omit [Fintype ι] in
theorem held_of_finished (h : site.prog bound i = .ret ()) : site.phase.held = 0 := by
  obtain ⟨phase, made, rest⟩ := site
  cases phase with
  | hold peer node => cases h
  | count node => cases h
  | lower node => cases h
  | _ => rfl

/-- No thread holds a reference to a node that has been terminated, that is on the free list
or in the node pool, or whose pointer has been freed.  No node has been terminated twice, and
no pointer has been freed twice or before its node was terminated.  When all threads have
finished, the counts are the numbers of references in their hands. -/
structure SafelyShared (c : Threads ι (SharedCnt ι)) : Prop where
  held : ∀ i, ∀ n ∈ c.state.ext.hands i, ∃ nd, c.state.nodes n = some nd ∧ 0 < nd.count ∧
    nd.ptr ∉ c.state.terminated ∧ nd.ptr ∉ c.state.ext.freed ∧ n ∉ c.state.freeList ∧
    n ∉ c.state.nodePool
  terminatedOnce : c.state.terminated.Nodup
  freedOnce : c.state.ext.freed.Nodup
  freedTerminated : ∀ p ∈ c.state.ext.freed, p ∈ c.state.terminated
  counted : (∀ i, c.progs i = .ret ()) → ∀ n nd, c.state.nodes n = some nd →
    nd.count.toNat = ∑ i, (c.state.ext.hands i).count n

theorem Shares.safelyShared (h : Shares bound c sites) : SafelyShared c where
  held := by
    intro i n hn
    have hmem : n ∈ (ledgerOf c.state sites).refs := by
      refine Multiset.mem_add.mpr (Or.inl ?_)
      exact Multiset.mem_sum.mpr ⟨i, Finset.mem_univ i, Multiset.mem_coe.mpr hn⟩
    obtain ⟨p, hp, hcount, hlive, hunfreed, hwait⟩ := h.sound.safe hmem
    obtain ⟨nd, hnd, rfl⟩ := Option.map_eq_some_iff.mp hp
    have hpos : 0 < nd.count.toNat := (counts_eq hnd).symm ▸ hcount
    refine ⟨nd, hnd, UInt32.lt_iff_toNat_lt.mpr hpos, hlive, hunfreed, fun hfree => hwait ?_,
      fun hpool => hwait ?_⟩
    · exact Multiset.mem_add.mpr (Or.inl (Multiset.mem_add.mpr (Or.inl hfree)))
    · exact Multiset.mem_add.mpr (Or.inr (Multiset.mem_add.mpr (Or.inl hpool)))
  terminatedOnce := h.sound.terminatedOnce
  freedOnce := h.sound.freedOnce
  freedTerminated := h.sound.freedTerminated
  counted := by
    intro hdone n nd hnd
    have hheld : ∀ j, (sites j).phase.held = 0 := fun j =>
      held_of_finished ((h.prog j).symm.trans (hdone j))
    have hcounted := h.sound.counted n
    have hrefs : (ledgerOf c.state sites).refs = inHands c.state := by
      simp [ledgerOf, hheld]
    rw [hrefs, inHands, Multiset.count_sum'] at hcounted
    refine (counts_eq hnd).symm.trans (hcounted.trans ?_)
    exact Finset.sum_congr rfl fun j _ => Multiset.coe_count n _

/-- Whatever the threads do with their references, and in whatever order they take their
steps, the nodes are shared safely. -/
theorem run_safelyShared (gcThreshold bound : ℕ) (uses : ι → List (Use ι)) (schedule : List ι)
    (c : Threads ι (SharedCnt ι)) (os : List Unit)
    (hfew : StepsMeet Threads.step FewReferences (startUses gcThreshold bound uses) schedule)
    (hrun : (startUses gcThreshold bound uses).run schedule = some (c, os)) : SafelyShared c := by
  have hkept (c : Threads ι (SharedCnt ι)) (i : ι) (c' : Threads ι (SharedCnt ι)) (u : Unit)
      (h : ∃ sites, Shares bound c sites) (hfew : FewReferences c i)
      (hstep : c.step i = some (c', u)) : ∃ sites, Shares bound c' sites :=
    h.elim fun sites h => h.step hfew hstep
  obtain ⟨sites, h⟩ := invariant_of_runSteps hkept schedule _ c os
    ⟨_, shares_startUses gcThreshold bound uses⟩ hfew hrun
  exact h.safelyShared

/-! ## Two threads with one node -/

instance (c : Threads ι (SharedCnt ι)) (i : ι) : Decidable (FewReferences c i) :=
  inferInstanceAs (Decidable (_ < _))

/-- One thread makes a node and hands a second reference to the other one; both give theirs
back. -/
def twoUses : Bool → List (Use Bool)
  | false => [.create, .retain 0, .give 0 true, .release 0]
  | true => [.release 0]

/-- The first thread is overtaken while it gives back its reference. -/
def twoSteps : List Bool :=
  List.replicate 11 false ++ List.replicate 5 true ++ List.replicate 2 false ++
    List.replicate 8 true

theorem run_safelyShared_two : ∃ c os,
    (startUses 0 4 twoUses).run twoSteps = some (c, os) ∧ SafelyShared c := by
  have hsome : ((startUses 0 4 twoUses).run twoSteps).isSome = true := by decide
  obtain ⟨⟨c, os⟩, hrun⟩ := Option.isSome_iff_exists.mp hsome
  exact ⟨c, os, hrun, run_safelyShared 0 4 twoUses twoSteps c os (by decide) hrun⟩

end Sharing
end RefCnt
end LibHL
