import LibHL.RefCnt.Sharing

/-!
# The steps of the threads are steps of the ledger

Every atomic step of a thread either changes nothing that the ledger records, or is one step
of it.
-/

namespace LibHL
namespace RefCnt
namespace Sharing

open Ledger

variable {ι : Type} [DecidableEq ι] {bound : ℕ} {i : ι} {s s' : SharedCnt ι}
  {q' : Prog (SharedCnt ι) Unit}

/-! ## What the nodes store -/

section Nodes

variable {P : Type} {nodes : Heap (RefcntNode P)} {n : Addr} {nd nd' : RefcntNode P}

def ptrs (nodes : Heap (RefcntNode P)) (n : Addr) : Option P := (nodes n).map RefcntNode.ptr

def counts (nodes : Heap (RefcntNode P)) (n : Addr) : ℕ :=
  ((nodes n).map fun nd => nd.count.toNat).getD 0

def flags (nodes : Heap (RefcntNode P)) (n : Addr) : Bool :=
  ((nodes n).map RefcntNode.updating).getD false

theorem ptrs_eq (hn : nodes n = some nd) : ptrs nodes n = some nd.ptr := by
  rw [ptrs, hn]
  rfl

theorem counts_eq (hn : nodes n = some nd) : counts nodes n = nd.count.toNat := by
  rw [counts, hn]
  rfl

theorem flags_eq (hn : nodes n = some nd) : flags nodes n = nd.updating := by
  rw [flags, hn]
  rfl

/-- One node is made, changed or released. -/
theorem ptrs_of_cell {nodes' : Heap (RefcntNode P)} {x : Option (RefcntNode P)}
    (h : ∀ m, nodes' m = if m = n then x else nodes m) :
    ptrs nodes' = Function.update (ptrs nodes) n (x.map RefcntNode.ptr) := by
  funext m
  by_cases hm : m = n
  · subst hm
    simp [ptrs, h]
  · simp [ptrs, h, hm]

theorem counts_of_cell {nodes' : Heap (RefcntNode P)} {x : Option (RefcntNode P)}
    (h : ∀ m, nodes' m = if m = n then x else nodes m) :
    counts nodes' = Function.update (counts nodes) n ((x.map fun nd => nd.count.toNat).getD 0) := by
  funext m
  by_cases hm : m = n
  · subst hm
    simp [counts, h]
  · simp [counts, h, hm]

theorem flags_of_cell {nodes' : Heap (RefcntNode P)} {x : Option (RefcntNode P)}
    (h : ∀ m, nodes' m = if m = n then x else nodes m) :
    flags nodes' = Function.update (flags nodes) n ((x.map RefcntNode.updating).getD false) := by
  funext m
  by_cases hm : m = n
  · subst hm
    simp [flags, h]
  · simp [flags, h, hm]

theorem cell_put (hn : nodes n = some nd) (m : Addr) :
    (nodes.put n nd') m = if m = n then some nd' else nodes m := by
  simp [Heap.put_apply, hn]

theorem ptrs_put (hn : nodes n = some nd) :
    ptrs (nodes.put n nd') = Function.update (ptrs nodes) n (some nd'.ptr) :=
  ptrs_of_cell (cell_put hn)

theorem counts_put (hn : nodes n = some nd) :
    counts (nodes.put n nd') = Function.update (counts nodes) n nd'.count.toNat :=
  counts_of_cell (cell_put hn)

theorem flags_put (hn : nodes n = some nd) :
    flags (nodes.put n nd') = Function.update (flags nodes) n nd'.updating :=
  flags_of_cell (cell_put hn)

theorem ptrs_put_same (hn : nodes n = some nd) (hptr : nd'.ptr = nd.ptr) :
    ptrs (nodes.put n nd') = ptrs nodes := by
  rw [ptrs_put hn, hptr, ← ptrs_eq hn, Function.update_eq_self]

theorem counts_put_same (hn : nodes n = some nd) (hcount : nd'.count = nd.count) :
    counts (nodes.put n nd') = counts nodes := by
  rw [counts_put hn, hcount, ← counts_eq hn, Function.update_eq_self]

theorem flags_put_same (hn : nodes n = some nd) (hflag : nd'.updating = nd.updating) :
    flags (nodes.put n nd') = flags nodes := by
  rw [flags_put hn, hflag, ← flags_eq hn, Function.update_eq_self]

end Nodes

/-! ## The hands -/

theorem sum_update_add {M : Type*} [AddCommMonoid M] [Fintype ι] (f : ι → M) (i : ι) (x : M) :
    ∑ j, Function.update f i x j + f i = ∑ j, f j + x := by
  rw [Finset.sum_update_of_mem (Finset.mem_univ i),
    Finset.sum_eq_add_sum_sdiff_singleton_of_mem (Finset.mem_univ i) f]
  abel

variable [Fintype ι]

/-- All references that are in a hand. -/
def inHands (s : SharedCnt ι) : Multiset Addr := ∑ i, (s.ext.hands i : Multiset Addr)

theorem inHands_setHand (s : SharedCnt ι) (i : ι) (hand : List Addr) :
    inHands (setHand s i hand) + (s.ext.hands i : Multiset Addr) = inHands s + hand := by
  have hupdate : ∀ j, ((setHand s i hand).ext.hands j : Multiset Addr) =
      Function.update (fun j => (s.ext.hands j : Multiset Addr)) i hand j := by
    intro j
    by_cases hj : j = i
    · subst hj
      simp [setHand]
    · simp [setHand, hj]
  rw [inHands, Finset.sum_congr rfl fun j _ => hupdate j]
  exact sum_update_add _ i _

theorem inHands_take (s : SharedCnt ι) (i : ι) (n : Addr) :
    inHands (setHand s i (n :: s.ext.hands i)) = {n} + inHands s := by
  have h := inHands_setHand s i (n :: s.ext.hands i)
  rw [← Multiset.cons_coe, ← Multiset.singleton_add, add_left_comm, ← add_assoc] at h
  exact add_right_cancel h

theorem inHands_drop {place : ℕ} {n : Addr} (hn : (s.ext.hands i)[place]? = some n) :
    inHands s = {n} + inHands (setHand s i ((s.ext.hands i).eraseIdx place)) := by
  obtain ⟨hlt, rfl⟩ := List.getElem?_eq_some_iff.mp hn
  have h := inHands_setHand s i ((s.ext.hands i).eraseIdx place)
  have hperm : (s.ext.hands i : Multiset Addr) =
      {(s.ext.hands i)[place]} + ((s.ext.hands i).eraseIdx place : Multiset Addr) := by
    rw [Multiset.singleton_add, Multiset.cons_coe]
    exact Multiset.coe_eq_coe.mpr (List.getElem_cons_eraseIdx_perm hlt).symm
  rw [hperm, add_left_comm, ← add_assoc] at h
  exact (add_right_cancel h).symm

omit [Fintype ι] in
theorem setHand_self (s : SharedCnt ι) (i : ι) : setHand s i (s.ext.hands i) = s := by
  rw [setHand, Function.update_eq_self]

/-! ## The ledger -/

/-- What the other threads have on their way, and the numbers of nodes made. -/
structure Others (ι : Type) where
  held : Multiset Addr
  owned : Multiset Addr
  doomed : Multiset Addr
  full : Multiset Addr
  empty : Multiset Addr
  made : ι → ℕ

/-- The ledger, seen from one thread. -/
def ledgerAt (i : ι) (s : SharedCnt ι) (site : Site ι) (o : Others ι) : Ledger Addr (ι × ℕ) where
  ptr := ptrs s.nodes
  count := counts s.nodes
  flag := flags s.nodes
  refs := inHands s + (site.phase.held + o.held)
  owned := site.phase.owned + o.owned
  doomed := site.phase.doomed + o.doomed
  full := (s.freeList : Multiset Addr) + (site.phase.full + o.full)
  empty := (s.nodePool : Multiset Addr) + (site.phase.empty + o.empty)
  used := {p | p.2 < Function.update o.made i site.made p.1}
  terminated := s.terminated
  freed := s.ext.freed

/-- What a step of a thread comes to. -/
def Advances (bound : ℕ) (i : ι) (s : SharedCnt ι) (site : Site ι) (o : Others ι)
    (q' : Prog (SharedCnt ι) Unit) (s' : SharedCnt ι) : Prop :=
  ∃ site' : Site ι, q' = site'.prog bound i ∧ site'.phase.Knows s' i ∧
    (∀ j, j ≠ i → s.ext.hands j ⊆ s'.ext.hands j) ∧
    (ledgerAt i s' site' o = ledgerAt i s site o ∨
      Step (ledgerAt i s site o) (ledgerAt i s' site' o))

variable {site : Site ι} {o : Others ι} {made : ℕ} {uses : List (Use ι)} {n : Addr}

theorem Advances.quiet (site' : Site ι) (hprog : q' = site'.prog bound i)
    (hknows : site'.phase.Knows s i)
    (hledger : ledgerAt i s site' o = ledgerAt i s site o) :
    Advances bound i s site o q' s :=
  ⟨site', hprog, hknows, fun _ _ => List.Subset.refl _, Or.inl hledger⟩

theorem Advances.step (site' : Site ι) (hprog : q' = site'.prog bound i)
    (hknows : site'.phase.Knows s' i) (hhands : s'.ext.hands = s.ext.hands) {L : Ledger Addr (ι × ℕ)}
    (hstep : Step (ledgerAt i s site o) L) (hledger : ledgerAt i s' site' o = L) :
    Advances bound i s site o q' s' :=
  ⟨site', hprog, hknows, fun j _ => by rw [hhands]; exact List.Subset.refl _,
    Or.inr (hledger ▸ hstep)⟩

/-! ## Taking and passing on references -/

theorem hold_advances {peer : ι}
    (htakes : (Site.prog bound i ⟨.hold peer n, made, uses⟩).Takes s q' s') :
    Advances bound i s ⟨.hold peer n, made, uses⟩ o q' s' := by
  obtain ⟨b, hf, rfl⟩ := htakes
  cases hf
  refine ⟨⟨.idle, made, uses⟩, rfl, trivial, fun j hj => ?_, Or.inl ?_⟩
  · by_cases hp : j = peer
    · subst hp
      simp [setHand]
    · simp [setHand, hp]
  · refine Ledger.ext rfl rfl rfl ?_ rfl rfl rfl rfl rfl rfl rfl
    simp only [ledgerAt, inHands_take, Phase.held]
    abel

/-- A reference is taken out of the hand, for what follows. -/
theorem drop_advances {place : ℕ} {k : Option Addr → Prog (SharedCnt ι) Unit}
    (next : Addr → Phase ι)
    (hheld : ∀ n, (next n).held = {n} ∧ (next n).owned = 0 ∧ (next n).doomed = 0 ∧
      (next n).full = 0 ∧ (next n).empty = 0)
    (hknows : ∀ n s, (next n).Knows s i)
    (hnone : k none = Site.prog bound i ⟨.idle, made, uses⟩)
    (hsome : ∀ n, k (some n) = Site.prog bound i ⟨next n, made, uses⟩)
    (htakes : (drop i place >>= k).Takes s q' s') {uses' : List (Use ι)} :
    Advances bound i s ⟨.idle, made, uses'⟩ o q' s' := by
  obtain ⟨b, hf, rfl⟩ := htakes
  cases hf
  cases hplace : (s.ext.hands i)[place]? with
  | none =>
      have hlen := List.getElem?_eq_none_iff.mp hplace
      rw [List.eraseIdx_of_length_le hlen, setHand_self]
      exact .quiet ⟨.idle, made, uses⟩ hnone trivial rfl
  | some n =>
      refine ⟨⟨next n, made, uses⟩, hsome n, hknows n _, fun j hj => ?_, Or.inl ?_⟩
      · simp [setHand, hj]
      · obtain ⟨hh, ho, hd, hf, he⟩ := hheld n
        refine Ledger.ext rfl rfl rfl ?_ ?_ ?_ ?_ ?_ rfl rfl rfl
        · simp only [ledgerAt, hh, inHands_drop hplace]
          simp only [Phase.held]
          abel
        · simp only [ledgerAt, ho]
          rfl
        · simp only [ledgerAt, hd]
          rfl
        · simp only [ledgerAt, hf]
          rfl
        · simp only [ledgerAt, he]
          rfl

theorem pick_advances {place : ℕ} {uses' : List (Use ι)}
    (htakes : (Site.prog bound i ⟨.idle, made, .retain place :: uses⟩).Takes s q' s')
    (huses : uses' = .retain place :: uses) :
    Advances bound i s ⟨.idle, made, uses'⟩ o q' s' := by
  subst huses
  obtain ⟨b, hf, rfl⟩ := htakes
  cases hf
  cases hplace : (s.ext.hands i)[place]? with
  | none => exact .quiet ⟨.idle, made, uses⟩ rfl trivial rfl
  | some n => exact .quiet ⟨.test n, made, uses⟩ rfl (List.mem_of_getElem? hplace) rfl

theorem test_advances (hknows : n ∈ s.ext.hands i)
    (htakes : (Site.prog bound i ⟨.test n, made, uses⟩).Takes s q' s') :
    Advances bound i s ⟨.test n, made, uses⟩ o q' s' := by
  obtain ⟨b, hf, rfl⟩ := htakes
  obtain ⟨nd, -, heq⟩ := Option.map_eq_some_iff.mp hf
  cases heq
  cases nd.updating with
  | true => exact .quiet ⟨.read n, made, uses⟩ rfl hknows rfl
  | false => exact .quiet ⟨.raise n, made, uses⟩ rfl hknows rfl

theorem read_advances (hknows : n ∈ s.ext.hands i)
    (htakes : (Site.prog bound i ⟨.read n, made, uses⟩).Takes s q' s') :
    Advances bound i s ⟨.read n, made, uses⟩ o q' s' := by
  obtain ⟨b, hf, rfl⟩ := htakes
  obtain ⟨nd, -, heq⟩ := Option.map_eq_some_iff.mp hf
  cases heq
  by_cases hzero : nd.count = 0
  · refine .quiet ⟨.idle, made, uses⟩ ?_ trivial rfl
    show Prog.bind (Prog.bind (if nd.count = 0 then _ else _) _) _ = _
    rw [if_pos hzero]
    rfl
  · refine .quiet ⟨.raise n, made, uses⟩ ?_ hknows rfl
    show Prog.bind (Prog.bind (if nd.count = 0 then _ else _) _) _ = _
    rw [if_neg hzero]
    rfl

/-- A count that is incremented, when there are not too many references. -/
theorem raise_advances (hsound : (ledgerAt i s ⟨.raise n, made, uses⟩ o).Sound)
    (hfew : (ledgerAt i s ⟨.raise n, made, uses⟩ o).refs.card + 1 < 2 ^ 32)
    (hknows : n ∈ s.ext.hands i)
    (htakes : (Site.prog bound i ⟨.raise n, made, uses⟩).Takes s q' s') :
    Advances bound i s ⟨.raise n, made, uses⟩ o q' s' := by
  obtain ⟨b, hf, rfl⟩ := htakes
  obtain ⟨nd, hn, heq⟩ := Option.map_eq_some_iff.mp hf
  cases heq
  have hmem : n ∈ (ledgerAt i s ⟨.raise n, made, uses⟩ o).refs := by
    refine Multiset.mem_add.mpr (Or.inl ?_)
    exact Multiset.mem_sum.mpr ⟨i, Finset.mem_univ i, Multiset.mem_coe.mpr hknows⟩
  have hcount : (nd.count + 1).toNat = nd.count.toNat + 1 := by
    have hcounted := hsound.counted n
    have hle := Multiset.count_le_card n (ledgerAt i s ⟨.raise n, made, uses⟩ o).refs
    rw [← hcounted] at hle
    have hsame : (ledgerAt i s ⟨.raise n, made, uses⟩ o).count n = nd.count.toNat :=
      counts_eq hn
    rw [UInt32.toNat_add, UInt32.toNat_one]
    exact Nat.mod_eq_of_lt (by omega)
  refine .step ⟨.hold i n, made, uses⟩ rfl trivial rfl (Step.raise _ n hmem) ?_
  refine Ledger.ext (ptrs_put_same hn rfl) ?_ (flags_put_same hn rfl) ?_ rfl rfl rfl rfl rfl rfl rfl
  · refine (counts_put hn).trans ?_
    rw [hcount, ← counts_eq hn]
    rfl
  · simp only [ledgerAt, Phase.held]
    change inHands s + ({n} + o.held) = {n} + (inHands s + (0 + o.held))
    abel

/-! ## New nodes -/

omit [Fintype ι] in
theorem used_succ (f : ι → ℕ) (i : ι) (made : ℕ) :
    {p : ι × ℕ | p.2 < Function.update f i (made + 1) p.1} =
      insert (i, made) {p : ι × ℕ | p.2 < Function.update f i made p.1} := by
  ext ⟨j, k⟩
  by_cases hj : j = i
  · subst hj
    simp only [Set.mem_ofPred_eq, Set.mem_insert_iff, Prod.mk.injEq, true_and,
      Function.update_self]
    omega
  · simp [hj]

theorem create_advances
    (htakes : (Site.prog bound i ⟨.idle, made, .create :: uses⟩).Takes s q' s') :
    Advances bound i s ⟨.idle, made, .create :: uses⟩ o q' s' := by
  obtain ⟨b, hf, rfl⟩ := htakes
  have hfresh : (i, made) ∉ (ledgerAt i s ⟨.idle, made, .create :: uses⟩ o).used := by
    simp [ledgerAt]
  have hrefs : ∀ n, inHands s + ({n} + o.held) = {n} + (inHands s + (0 + o.held)) := by
    intro n
    abel
  cases hpool : s.nodePool with
  | nil =>
      simp only [hpool] at hf
      cases hf
      have hnone : (ledgerAt i s ⟨.idle, made, .create :: uses⟩ o).ptr s.nodes.brk = none := by
        simp [ledgerAt, ptrs, Heap.brk_apply]
      refine .step ⟨.hold i s.nodes.brk, made + 1, uses⟩ rfl trivial rfl
        (Step.make _ s.nodes.brk (i, made) hnone hfresh) ?_
      have hcell := s.nodes.alloc_apply ⟨(i, made), 1, false⟩
      exact Ledger.ext (ptrs_of_cell hcell) (counts_of_cell hcell) (flags_of_cell hcell)
        (hrefs _) rfl rfl rfl (by simp only [ledgerAt, hpool]; rfl) (used_succ o.made i made) rfl
        rfl
  | cons node pool =>
      simp only [hpool] at hf
      obtain ⟨nd, hn, heq⟩ := Option.map_eq_some_iff.mp hf
      cases heq
      have hempty : (ledgerAt i s ⟨.idle, made, .create :: uses⟩ o).empty =
          {b} + ((pool : Multiset Addr) + (0 + o.empty)) := by
        simp only [ledgerAt, hpool, Phase.empty]
        rw [← Multiset.cons_coe, ← Multiset.singleton_add, add_assoc]
      refine .step ⟨.hold i b, made + 1, uses⟩ rfl trivial rfl
        (Step.reuse _ b (i, made) _ hempty hfresh) ?_
      exact Ledger.ext (ptrs_put hn) (counts_put hn) (flags_put hn) (hrefs _) rfl rfl rfl rfl
        (used_succ o.made i made) rfl rfl

/-! ## Giving back a reference -/

theorem count_advances (hsound : (ledgerAt i s ⟨.count n, made, uses⟩ o).Sound)
    (htakes : (Site.prog bound i ⟨.count n, made, uses⟩).Takes s q' s') :
    Advances bound i s ⟨.count n, made, uses⟩ o q' s' := by
  obtain ⟨b, hf, rfl⟩ := htakes
  obtain ⟨nd, hn, heq⟩ := Option.map_eq_some_iff.mp hf
  cases heq
  -- the reference that is given back is still counted
  have hpos : 0 < nd.count := by
    have hmem : n ∈ (ledgerAt i s ⟨.count n, made, uses⟩ o).refs :=
      Multiset.mem_add.mpr (Or.inr (mem_add_self n o.held))
    have hcounted := hsound.counted n
    have hsame : (ledgerAt i s ⟨.count n, made, uses⟩ o).count n = nd.count.toNat :=
      counts_eq hn
    have hcount := Multiset.count_pos.mpr hmem
    rw [← hcounted, hsame] at hcount
    exact UInt32.lt_iff_toNat_lt.mpr hcount
  exact .quiet ⟨.lower n, made, uses⟩ (congrArg (Prog.bind · _) (if_pos hpos)) trivial rfl

theorem lower_advances (hsound : (ledgerAt i s ⟨.lower n, made, uses⟩ o).Sound)
    (htakes : (Site.prog bound i ⟨.lower n, made, uses⟩).Takes s q' s') :
    Advances bound i s ⟨.lower n, made, uses⟩ o q' s' := by
  obtain ⟨b, hf, rfl⟩ := htakes
  obtain ⟨nd, hn, heq⟩ := Option.map_eq_some_iff.mp hf
  cases heq
  have hrefs : (ledgerAt i s ⟨.lower n, made, uses⟩ o).refs =
      {n} + (inHands s + (0 + o.held)) := by
    simp only [ledgerAt, Phase.held]
    abel
  have hcount : (nd.count - 1).toNat = nd.count.toNat - 1 := by
    have hcounted := hsound.counted n
    rw [hrefs, Multiset.count_add, Multiset.count_singleton_self] at hcounted
    have hsame : (ledgerAt i s ⟨.lower n, made, uses⟩ o).count n = nd.count.toNat :=
      counts_eq hn
    have hle : (1 : UInt32) ≤ nd.count := UInt32.le_iff_toNat_le.mpr (by
      rw [← hsame, hcounted]
      exact Nat.le_add_right 1 _)
    exact UInt32.toNat_sub_of_le _ _ hle
  refine .step ⟨.flag n, made, uses⟩ rfl trivial rfl (Step.lower _ n _ hrefs) ?_
  refine Ledger.ext (ptrs_put_same hn rfl) ?_ (flags_put_same hn rfl) rfl rfl rfl rfl rfl rfl rfl rfl
  refine (counts_put hn).trans ?_
  rw [hcount, ← counts_eq hn]
  rfl

theorem flag_advances (htakes : (Site.prog bound i ⟨.flag n, made, uses⟩).Takes s q' s') :
    Advances bound i s ⟨.flag n, made, uses⟩ o q' s' := by
  obtain ⟨b, hf, rfl⟩ := htakes
  obtain ⟨nd, hn, heq⟩ := Option.map_eq_some_iff.mp hf
  by_cases hflag : nd.updating = false
  · rw [if_pos hflag] at heq
    cases heq
    refine .step ⟨.look n, made, uses⟩ rfl trivial rfl
      (Step.set _ n (by simp [ledgerAt, ptrs_eq hn]) ((flags_eq hn).trans hflag)) ?_
    refine Ledger.ext (ptrs_put_same hn rfl) (counts_put_same hn rfl) (flags_put hn) rfl ?_ rfl rfl
      rfl rfl rfl rfl
    simp only [ledgerAt, Phase.owned, zero_add]
  · rw [if_neg hflag] at heq
    cases heq
    exact .quiet ⟨.due, made, uses⟩ rfl trivial rfl

theorem look_advances (htakes : (Site.prog bound i ⟨.look n, made, uses⟩).Takes s q' s') :
    Advances bound i s ⟨.look n, made, uses⟩ o q' s' := by
  obtain ⟨b, hf, rfl⟩ := htakes
  obtain ⟨nd, hn, heq⟩ := Option.map_eq_some_iff.mp hf
  cases heq
  by_cases hzero : nd.count = 0
  · have howned : (ledgerAt i s ⟨.look n, made, uses⟩ o).owned = {n} + (0 + o.owned) := by
      simp only [ledgerAt, Phase.owned, zero_add]
    have hcount : (ledgerAt i s ⟨.look n, made, uses⟩ o).count n = 0 := by
      refine (counts_eq hn).trans ?_
      rw [hzero]
      rfl
    refine .step ⟨.terminate n, made, uses⟩ ?_ trivial rfl (Step.doom _ n _ howned hcount) ?_
    · show Prog.bind (Prog.bind (if nd.count = 0 then _ else _) _) _ = _
      rw [if_pos hzero]
      rfl
    · refine Ledger.ext rfl rfl rfl rfl rfl ?_ rfl rfl rfl rfl rfl
      simp only [ledgerAt, Phase.doomed, zero_add]
  · refine .quiet ⟨.clear n, made, uses⟩ ?_ trivial rfl
    show Prog.bind (Prog.bind (if nd.count = 0 then _ else _) _) _ = _
    rw [if_neg hzero]
    rfl

theorem terminate_advances
    (htakes : (Site.prog bound i ⟨.terminate n, made, uses⟩).Takes s q' s') :
    Advances bound i s ⟨.terminate n, made, uses⟩ o q' s' := by
  obtain ⟨b, hf, rfl⟩ := htakes
  obtain ⟨nd, hn, heq⟩ := Option.map_eq_some_iff.mp hf
  cases heq
  have hdoomed : (ledgerAt i s ⟨.terminate n, made, uses⟩ o).doomed = {n} + (0 + o.doomed) := by
    simp only [ledgerAt, Phase.doomed, zero_add]
  by_cases hroom : s.freeList.length < freeListSize s.gcThreshold
  · refine .step ⟨.due, made, uses⟩ rfl trivial rfl
      (Step.terminate _ n nd.ptr _ {n} hdoomed (ptrs_eq hn) (le_refl _)) ?_
    refine Ledger.ext rfl rfl rfl rfl rfl rfl ?_ rfl rfl rfl rfl
    simp only [ledgerAt, if_pos hroom, Phase.full]
    rw [← Multiset.coe_add, add_comm (s.freeList : Multiset Addr), add_assoc]
    rfl
  · refine .step ⟨.due, made, uses⟩ rfl trivial rfl
      (Step.terminate _ n nd.ptr _ 0 hdoomed (ptrs_eq hn) (Multiset.zero_le _)) ?_
    refine Ledger.ext rfl rfl rfl rfl rfl rfl ?_ rfl rfl rfl rfl
    simp only [ledgerAt, if_neg hroom, Phase.full, zero_add]

theorem clear_advances (hsound : (ledgerAt i s ⟨.clear n, made, uses⟩ o).Sound)
    (htakes : (Site.prog bound i ⟨.clear n, made, uses⟩).Takes s q' s') :
    Advances bound i s ⟨.clear n, made, uses⟩ o q' s' := by
  obtain ⟨b, hf, rfl⟩ := htakes
  obtain ⟨nd, hn, heq⟩ := Option.map_eq_some_iff.mp hf
  have howned : (ledgerAt i s ⟨.clear n, made, uses⟩ o).owned = {n} + (0 + o.owned) := by
    simp only [ledgerAt, Phase.owned, zero_add]
  have hflag : nd.updating = true := by
    refine (flags_eq hn).symm.trans (hsound.flagged n ?_).1
    rw [howned]
    exact Multiset.mem_add.mpr (Or.inl (mem_add_self n _))
  rw [if_pos hflag] at heq
  cases heq
  refine .step ⟨.due, made, uses⟩ rfl trivial rfl (Step.clear _ n _ howned) ?_
  exact Ledger.ext (ptrs_put_same hn rfl) (counts_put_same hn rfl) (flags_put hn) rfl rfl rfl rfl
    rfl rfl rfl rfl

/-! ## Collecting -/

theorem due_advances (htakes : (Site.prog bound i ⟨.due, made, uses⟩).Takes s q' s') :
    Advances bound i s ⟨.due, made, uses⟩ o q' s' := by
  obtain ⟨b, hf, rfl⟩ := htakes
  cases hf
  by_cases hmany : s.gcThreshold < s.freeList.length
  · refine .quiet ⟨.loop (s.gcThreshold / 2) bound, made, uses⟩ ?_ trivial rfl
    exact congrArg (Prog.bind · _) (if_pos hmany)
  · refine .quiet ⟨.idle, made, uses⟩ ?_ trivial rfl
    exact congrArg (Prog.bind · _) (if_neg hmany)

theorem loop_advances {limit rounds : ℕ}
    (htakes : (Site.prog bound i ⟨.loop limit rounds, made, uses⟩).Takes s q' s') :
    Advances bound i s ⟨.loop limit rounds, made, uses⟩ o q' s' := by
  cases rounds with
  | zero =>
      obtain ⟨b, hf, -⟩ := htakes
      cases hf
  | succ rounds =>
      obtain ⟨b, hf, rfl⟩ := htakes
      cases hf
      by_cases hmany : limit < s.freeList.length
      · refine .quiet ⟨.fetch limit rounds, made, uses⟩ ?_ trivial rfl
        exact congrArg (Prog.bind · _) (if_pos hmany)
      · refine .quiet ⟨.idle, made, uses⟩ ?_ trivial rfl
        exact congrArg (Prog.bind · _) (if_neg hmany)

theorem fetch_advances {limit rounds : ℕ}
    (htakes : (Site.prog bound i ⟨.fetch limit rounds, made, uses⟩).Takes s q' s') :
    Advances bound i s ⟨.fetch limit rounds, made, uses⟩ o q' s' := by
  obtain ⟨b, hf, rfl⟩ := htakes
  cases hf
  cases hlist : s.freeList with
  | nil =>
      refine ⟨⟨.idle, made, uses⟩, rfl, trivial, fun _ _ => List.Subset.refl _, Or.inl ?_⟩
      refine Ledger.ext rfl rfl rfl rfl rfl rfl ?_ rfl rfl rfl rfl
      simp only [ledgerAt, hlist]
      rfl
  | cons n list =>
      refine ⟨⟨.lookUp n limit rounds, made, uses⟩, rfl, trivial, fun _ _ => List.Subset.refl _,
        Or.inl ?_⟩
      refine Ledger.ext rfl rfl rfl rfl rfl rfl ?_ rfl rfl rfl rfl
      simp only [ledgerAt, hlist, List.tail_cons, Phase.full, ← Multiset.cons_coe]
      rw [← Multiset.singleton_add]
      abel

theorem lookUp_advances {limit rounds : ℕ}
    (htakes : (Site.prog bound i ⟨.lookUp n limit rounds, made, uses⟩).Takes s q' s') :
    Advances bound i s ⟨.lookUp n limit rounds, made, uses⟩ o q' s' := by
  obtain ⟨b, hf, rfl⟩ := htakes
  obtain ⟨nd, hn, heq⟩ := Option.map_eq_some_iff.mp hf
  cases heq
  exact .quiet ⟨.free n nd.ptr limit rounds, made, uses⟩ rfl ⟨nd, hn, rfl⟩ rfl

theorem free_advances {ptr : ι × ℕ} {limit rounds : ℕ}
    (hknows : ∃ nd, s.nodes n = some nd ∧ nd.ptr = ptr)
    (htakes : (Site.prog bound i ⟨.free n ptr limit rounds, made, uses⟩).Takes s q' s') :
    Advances bound i s ⟨.free n ptr limit rounds, made, uses⟩ o q' s' := by
  obtain ⟨nd, hn, rfl⟩ := hknows
  obtain ⟨b, hf, rfl⟩ := htakes
  cases hf
  have hfull : (ledgerAt i s ⟨.free n nd.ptr limit rounds, made, uses⟩ o).full =
      {n} + ((s.freeList : Multiset Addr) + (0 + o.full)) := by
    simp only [ledgerAt, Phase.full]
    abel
  refine .step ⟨.recycle n limit rounds, made, uses⟩ rfl trivial rfl
    (Step.free _ n nd.ptr _ hfull (ptrs_eq hn)) ?_
  refine Ledger.ext rfl rfl rfl rfl rfl rfl rfl ?_ rfl rfl rfl
  simp only [ledgerAt, Phase.empty]
  abel

theorem recycle_advances {limit rounds : ℕ}
    (htakes : (Site.prog bound i ⟨.recycle n limit rounds, made, uses⟩).Takes s q' s') :
    Advances bound i s ⟨.recycle n limit rounds, made, uses⟩ o q' s' := by
  obtain ⟨b, hf, rfl⟩ := htakes
  by_cases hroom : s.nodePool.length < nodePoolSize
  · simp only [if_pos hroom] at hf
    cases hf
    refine ⟨⟨.loop limit rounds, made, uses⟩, rfl, trivial, fun _ _ => List.Subset.refl _,
      Or.inl ?_⟩
    refine Ledger.ext rfl rfl rfl rfl rfl rfl rfl ?_ rfl rfl rfl
    simp only [ledgerAt, Phase.empty, ← Multiset.coe_add, Multiset.coe_singleton]
    abel
  · simp only [if_neg hroom] at hf
    obtain ⟨nodes, hfree, heq⟩ := Option.map_eq_some_iff.mp hf
    obtain ⟨nd, hn, hkill⟩ := Option.map_eq_some_iff.mp hfree
    cases heq
    subst hkill
    have hempty : (ledgerAt i s ⟨.recycle n limit rounds, made, uses⟩ o).empty =
        {n} + ((s.nodePool : Multiset Addr) + (0 + o.empty)) := by
      simp only [ledgerAt, Phase.empty]
      abel
    refine .step ⟨.loop limit rounds, made, uses⟩ rfl trivial rfl (Step.discard _ n _ hempty) ?_
    have hcell := s.nodes.kill_apply n
    exact Ledger.ext (ptrs_of_cell hcell) (counts_of_cell hcell) (flags_of_cell hcell) rfl rfl rfl
      rfl rfl rfl rfl rfl

end Sharing
end RefCnt
end LibHL
