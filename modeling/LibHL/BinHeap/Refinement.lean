import LibHL.BinHeap.Operations
import LibHL.Support.Run

/-!
# Runs of the binomial heap

A heap stands for the bag of the items it stores.  Every run of insertions and
deletions succeeds and keeps the heap consistent; an insertion adds one item to
the bag, a successful deletion takes one away, and no other item is lost or
duplicated.
-/

namespace LibHL
namespace BinHeap

variable {K V : Type}

/-- The operations that change a heap. -/
inductive BinheapOp (K V : Type) where
  | insert (key : K) (value : V)
  | deleteMaximum
  | deleteMinimum
  | delete (key : K)

/-- Perform an operation; the output is the return code and the value handed
out. -/
def stepOp (cmp : K → K → ℤ) (bh : BinHeap K V) :
    BinheapOp K V → Option (BinHeap K V × ℤ × Option V)
  | .insert key value => do
      let r ← binheapInsert cmp bh key value
      some (r.1, r.2, none)
  | .deleteMaximum => binheapDeleteMaximum cmp bh
  | .deleteMinimum => binheapDeleteMinimum cmp bh
  | .delete key => binheapDelete cmp bh key

/-- `binheap_maximum` of a heap that is organised for its maximum, and
`binheap_minimum` of the others. -/
def modeExtremum (cmp : K → K → ℤ) (bh : BinHeap K V) : Option (ℤ × Option (K × V)) :=
  match bh.mode with
  | .max => binheapMaximum cmp bh
  | .min => binheapMinimum cmp bh

/-- The nodes that can be reached from the list of trees. -/
inductive InForest (bh : BinHeap K V) : Addr → Prop where
  | root {a : Addr} (mem : a ∈ bh.trees) : InForest bh a
  | child {a b : Addr} {n : BinomialTreeNode K V} (reached : InForest bh a)
      (node : bh.nodes a = some n) (mem : b ∈ n.children) : InForest bh b

/-- An item of the bag that has precedence over all of them. -/
def IsExtremum (c : Comparator K) (mode : BinheapMode) (bag : Multiset (K × V))
    (i : K × V) : Prop :=
  i ∈ bag ∧ ∀ j ∈ bag, HasPrecedence c.cmp mode i.1 j.1

/-- A deletion hands out an item that `chosen` allows and removes it from the bag. -/
def Removes (chosen : K × V → Prop) (bag : Multiset (K × V)) (o : ℤ × Option V)
    (bag' : Multiset (K × V)) : Prop :=
  ∃ i, chosen i ∧ o = (0, some i.2) ∧ bag = i ::ₘ bag'

/-- The bag an operation leaves, and what it returns.  At the end the heap is
organised for, the deleted item is extreme; a deletion fails without an effect. -/
def bagStep (c : Comparator K) (mode : BinheapMode) (bag : Multiset (K × V))
    (op : BinheapOp K V) (o : ℤ × Option V) (bag' : Multiset (K × V)) : Prop :=
  match op with
  | .insert key value => o = (0, none) ∧ bag' = (key, value) ::ₘ bag
  | .deleteMaximum => (o = (-1, none) ∧ bag = 0 ∧ bag' = 0) ∨
      Removes (fun i => mode = .max → IsExtremum c mode bag i) bag o bag'
  | .deleteMinimum => (o = (-1, none) ∧ bag = 0 ∧ bag' = 0) ∨
      Removes (fun i => mode = .min → IsExtremum c mode bag i) bag o bag'
  | .delete key => (o = (-1, none) ∧ bag' = bag) ∨
      Removes (fun i => c.cmp i.1 key = 0) bag o bag'

variable {c : Comparator K} {bh : BinHeap K V} {mode side : BinheapMode}
  {nodes : Heap (BinomialTreeNode K V)} {trees : List Addr} {a : Addr}
  {n : BinomialTreeNode K V}

theorem isExtremum_of_above (habove : ∀ b ∈ bh.nodes.live, Above c.cmp side bh.nodes a b)
    (hn : bh.nodes a = some n) : IsExtremum c side (contents bh) (item n) := by
  refine ⟨Heap.mem_bag_of_eq_some hn, ?_⟩
  intro j hj
  obtain ⟨b, m, hm, rfl⟩ := Heap.exists_of_mem_bag hj
  exact habove b (Heap.mem_live_of_eq_some hm) n.key m.key (keyOf_eq hn) (keyOf_eq hm)

/-! ## Deletions -/

/-- Deletion of the node that the search for an end finds. -/
theorem deleteExtremum_of_finds (h : Consistent c bh) {r : Option Addr × ℕ}
    (hget : getExtremum c.cmp bh side = some r) (hfinds : Finds c bh side r) :
    ∃ bh' o, deleteExtremum c.cmp bh side = some (bh', o) ∧ Consistent c bh' ∧
      bh'.mode = bh.mode ∧
      ((o = (-1, none) ∧ contents bh = 0 ∧ contents bh' = 0) ∨
        Removes (fun i => ∃ a n, r.1 = some a ∧ bh.nodes a = some n ∧ item n = i)
          (contents bh) o (contents bh')) := by
  obtain ⟨node, i⟩ := r
  cases node with
  | none =>
      have hbag : contents bh = 0 := Heap.bag_eq_zero_iff.mpr (hfinds.none rfl)
      refine ⟨bh, (-1, none), ?_, h, rfl, Or.inl ⟨rfl, hbag, hbag⟩⟩
      simp [deleteExtremum, hget]
  | some a =>
      obtain ⟨n, hn⟩ := Heap.exists_of_mem_live (hfinds.mem a rfl)
      obtain ⟨bh', hdestroy, h', hmode, hbag⟩ :=
        binomialTreeNodeDestroy_spec h hn (hfinds.index a rfl)
      refine ⟨bh', (0, some n.value), ?_, h', hmode,
        Or.inr ⟨item n, ⟨a, n, rfl, hn, rfl⟩, rfl, hbag⟩⟩
      simp [deleteExtremum, hget, hn, hdestroy]

theorem Removes.imp {chosen chosen' : K × V → Prop} {bag bag' : Multiset (K × V)}
    {o : ℤ × Option V} (himp : ∀ i, chosen i → chosen' i)
    (h : Removes chosen bag o bag') : Removes chosen' bag o bag' := by
  obtain ⟨i, hi, ho, hbag⟩ := h
  exact ⟨i, himp i hi, ho, hbag⟩

theorem deleteExtremum_spec (h : Consistent c bh) (side : BinheapMode) :
    ∃ bh' o, deleteExtremum c.cmp bh side = some (bh', o) ∧ Consistent c bh' ∧
      bh'.mode = bh.mode ∧
      ((o = (-1, none) ∧ contents bh = 0 ∧ contents bh' = 0) ∨
        Removes (fun i => bh.mode = side → IsExtremum c bh.mode (contents bh) i)
          (contents bh) o (contents bh')) := by
  obtain ⟨r, hget, hfinds⟩ := getExtremum_finds c h.ordered h.headTop side
  obtain ⟨bh', o, hrun, h', hmode, hbag⟩ := deleteExtremum_of_finds h hget hfinds
  refine ⟨bh', o, hrun, h', hmode, hbag.imp_right (Removes.imp ?_)⟩
  rintro i ⟨a, n, hr, hn, rfl⟩ heq
  exact isExtremum_of_above (hfinds.top a hr heq).2 hn

theorem closestTo_mem (cmp : K → K → ℤ) (mode : BinheapMode) (key : K) :
    ∀ (l : List (Addr × K)) (best : Option (Addr × K)) (r : Addr × K),
      closestTo cmp mode key l best = some r → r ∈ l ∨ best = some r := by
  intro l
  induction l with
  | nil =>
      intro best r h
      exact Or.inr h
  | cons d l ih =>
      intro best r h
      have hmove : ∀ best', closestTo cmp mode key l best' = some r →
          best' = some d ∨ best' = best → r ∈ d :: l ∨ best = some r := by
        rintro best' hrun hbest
        rcases ih best' r hrun with hmem | heq
        · exact Or.inl (List.mem_cons_of_mem d hmem)
        · rcases hbest with rfl | rfl
          · cases heq
            exact Or.inl List.mem_cons_self
          · exact Or.inr heq
      unfold closestTo at h
      split at h
      · split at h
        · split at h
          · exact hmove _ h (Or.inl rfl)
          · exact hmove _ h (Or.inr rfl)
        · exact hmove _ h (Or.inl rfl)
      · exact hmove _ h (Or.inr rfl)

theorem withKey_candidates {l : List Addr} (hlive : ∀ a ∈ l, a ∈ nodes.live) :
    ∃ cands, l.mapM (withKey nodes) = some cands ∧ ∀ d ∈ cands, d.1 ∈ l := by
  have hsome : ∀ a ∈ l, (withKey nodes a).isSome := by
    intro a ha
    rw [withKey, Option.isSome_map]
    exact Heap.mem_live.mp (hlive a ha)
  obtain ⟨cands, hcands, hmap⟩ := mapM_of_isSome hsome
  refine ⟨cands, hcands, ?_⟩
  intro d hd
  have hmem : some d ∈ l.map (withKey nodes) := by
    rw [← hmap]
    exact List.mem_map.mpr ⟨d, hd, rfl⟩
  obtain ⟨a, ha, hkey⟩ := List.mem_map.mp hmem
  obtain ⟨n, -, heq⟩ := Option.map_eq_some_iff.mp hkey
  rw [← heq]
  exact ha

/-- The search for a key ends, and it ends at a node with that key if at all. -/
theorem searchKey_spec (h : Ordered c mode nodes trees) {rank : Addr → ℕ}
    (hrank : ∀ a ∈ nodes.live, ∀ b ∈ childrenOf nodes a, rank b < rank a) (key : K) :
    ∀ (fuel : ℕ) (a : Addr), a ∈ nodes.live → rank a < fuel →
      ∃ r, searchKey c.cmp mode key nodes fuel a = some r ∧
        ∀ b, r = some b → ∃ m, nodes b = some m ∧ c.cmp m.key key = 0 := by
  intro fuel
  induction fuel with
  | zero =>
      intro a _ hlt
      exact absurd hlt (Nat.not_lt_zero _)
  | succ fuel ih =>
      intro a ha hlt
      obtain ⟨n, hn⟩ := Heap.exists_of_mem_live ha
      by_cases hkey : c.cmp n.key key = 0
      · refine ⟨some a, by simp [searchKey, hn, hkey], ?_⟩
        rintro b ⟨⟩
        exact ⟨n, hn, hkey⟩
      obtain ⟨cands, hcands, hmem⟩ := withKey_candidates (h.children_live hn)
      cases hclose : closestTo c.cmp mode key cands none with
      | none =>
          refine ⟨none, by simp [searchKey, hn, hkey, hcands, hclose], ?_⟩
          intro b hb
          cases hb
      | some d =>
          have hd : d.1 ∈ childrenOf nodes a := by
            rw [childrenOf_eq hn]
            exact hmem d ((closestTo_mem c.cmp mode key cands none d hclose).resolve_right
              (by simp))
          have hdrank := hrank a ha d.1 hd
          obtain ⟨r, hrun, hfound⟩ := ih d.1 (h.forest.mem_of_kid ha hd) (by omega)
          exact ⟨r, by simp [searchKey, hn, hkey, hcands, hclose, hrun], hfound⟩

theorem binheapDelete_spec (h : Consistent c bh) (key : K) :
    ∃ bh' o, binheapDelete c.cmp bh key = some (bh', o) ∧ Consistent c bh' ∧
      bh'.mode = bh.mode ∧
      ((o = (-1, none) ∧ contents bh' = contents bh) ∨
        Removes (fun i => c.cmp i.1 key = 0) (contents bh) o (contents bh')) := by
  obtain ⟨cands, hcands, hmem⟩ := withKey_candidates h.ordered.trees_live
  cases hclose : closestTo c.cmp bh.mode key cands none with
  | none =>
      refine ⟨bh, (-1, none), ?_, h, rfl, Or.inl ⟨rfl, rfl⟩⟩
      simp [binheapDelete, hcands, hclose]
  | some d =>
      have hd : d.1 ∈ bh.trees :=
        hmem d ((closestTo_mem c.cmp bh.mode key cands none d hclose).resolve_right (by simp))
      have hdlive := h.ordered.trees_live d.1 hd
      obtain ⟨rank, hrank, hcard⟩ := h.ordered.forest.exists_rank_lt
      have hfuel : rank d.1 < bh.nodes.brk :=
        Nat.lt_of_lt_of_le (hcard d.1 hdlive) bh.nodes.card_live_le_brk
      obtain ⟨r, hsearch, hfound⟩ :=
        searchKey_spec h.ordered hrank key bh.nodes.brk d.1 hdlive hfuel
      cases r with
      | none =>
          refine ⟨bh, (-1, none), ?_, h, rfl, Or.inl ⟨rfl, rfl⟩⟩
          simp [binheapDelete, hcands, hclose, hsearch]
      | some a =>
          obtain ⟨n, hn, hkey⟩ := hfound a rfl
          obtain ⟨bh', hdestroy, h', hmode, hbag⟩ :=
            binomialTreeNodeDestroy_spec h hn (fun _ hzero => absurd rfl hzero)
          refine ⟨bh', (0, some n.value), ?_, h', hmode, Or.inr ⟨item n, hkey, rfl, hbag⟩⟩
          simp [binheapDelete, hcands, hclose, hsearch, hn, hdestroy]

/-! ## Consistent heaps -/

theorem Consistent.create (c : Comparator K) (mode : BinheapMode) :
    Consistent c (binheapCreate mode : BinHeap K V) where
  ordered := ⟨Forest.empty, fun _ ha => absurd ha (Finset.notMem_empty _)⟩
  count := rfl
  headNone := fun _ => rfl
  headTop := fun _ ha => nomatch ha

theorem Consistent.inForest_iff (h : Consistent c bh) (a : Addr) :
    InForest bh a ↔ a ∈ bh.nodes.live := by
  constructor
  · intro hin
    induction hin with
    | root hmem => exact h.ordered.trees_live _ hmem
    | child _ hnode hmem _ => exact h.ordered.children_live hnode _ hmem
  · refine h.ordered.forest.induct (fun a ha => .root ha) ?_ a
    intro a ha hin b hb
    obtain ⟨n, hn⟩ := Heap.exists_of_mem_live ha
    rw [childrenOf_eq hn] at hb
    exact .child hin hn hb

theorem Consistent.head_eq_none_iff (h : Consistent c bh) :
    bh.head = none ↔ contents bh = 0 := by
  rw [contents, Heap.bag_eq_zero_iff]
  constructor
  · exact h.headNone
  · intro hempty
    cases hhead : bh.head with
    | none => rfl
    | some a =>
        have ha := h.ordered.trees_live a (h.headTop a hhead).1
        rw [hempty] at ha
        exact absurd ha (Finset.notMem_empty a)

/-- At the end the heap is organised for, the extreme item is found. -/
theorem Consistent.peekExtremum_mode (h : Consistent c bh) :
    (contents bh = 0 ∧ peekExtremum c.cmp bh bh.mode = some (-1, none)) ∨
      ∃ i, IsExtremum c bh.mode (contents bh) i ∧
        peekExtremum c.cmp bh bh.mode = some (0, some i) := by
  obtain ⟨⟨node, i⟩, hget, hfinds⟩ := getExtremum_finds c h.ordered h.headTop bh.mode
  cases node with
  | none =>
      refine Or.inl ⟨Heap.bag_eq_zero_iff.mpr (hfinds.none rfl), ?_⟩
      simp [peekExtremum, hget]
  | some a =>
      obtain ⟨n, hn⟩ := Heap.exists_of_mem_live (hfinds.mem a rfl)
      refine Or.inr ⟨item n, isExtremum_of_above (hfinds.top a rfl rfl).2 hn, ?_⟩
      simp [peekExtremum, hget, hn, item]

theorem modeExtremum_eq (cmp : K → K → ℤ) (bh : BinHeap K V) :
    modeExtremum cmp bh = peekExtremum cmp bh bh.mode := by
  unfold modeExtremum
  cases hmode : bh.mode with
  | max => rfl
  | min => rfl

/-! ## Runs -/

/-- One operation on a consistent heap. -/
theorem stepOp_refines (h : Consistent c bh) (op : BinheapOp K V) :
    ∃ bh' o, stepOp c.cmp bh op = some (bh', o) ∧
      bagStep c bh.mode (contents bh) op o (contents bh') ∧
      Consistent c bh' ∧ bh'.mode = bh.mode := by
  cases op with
  | insert key value =>
      obtain ⟨bh', hrun, h', hmode, hbag⟩ := binheapInsert_spec h key value
      exact ⟨bh', (0, none), by simp [stepOp, hrun], ⟨rfl, hbag⟩, h', hmode⟩
  | deleteMaximum =>
      obtain ⟨bh', o, hrun, h', hmode, hbag⟩ := deleteExtremum_spec h .max
      exact ⟨bh', o, hrun, hbag, h', hmode⟩
  | deleteMinimum =>
      obtain ⟨bh', o, hrun, h', hmode, hbag⟩ := deleteExtremum_spec h .min
      exact ⟨bh', o, hrun, hbag, h', hmode⟩
  | delete key =>
      obtain ⟨bh', o, hrun, h', hmode, hbag⟩ := binheapDelete_spec h key
      exact ⟨bh', o, hrun, hbag, h', hmode⟩

/-- Every run succeeds and leaves a consistent heap: its forest is heap-ordered
with agreeing pointers, the counter counts the nodes that the trees reach, the
head is null exactly if there is no item and has precedence over all otherwise.
The run acts on the stored items as on a bag, and the extreme item at the end the
heap is organised for is what the heap reports. -/
theorem binheap_refines_bag (c : Comparator K) (mode : BinheapMode)
    (ops : List (BinheapOp K V)) :
    ∃ bh outs, runSteps (stepOp c.cmp) (binheapCreate mode) ops = some (bh, outs) ∧
      RefRuns (bagStep c mode) 0 ops outs (contents bh) ∧
      Consistent c bh ∧ bh.mode = mode ∧
      (∀ a, InForest bh a ↔ a ∈ bh.nodes.live) ∧
      (bh.head = none ↔ contents bh = 0) ∧
      ((contents bh = 0 ∧ modeExtremum c.cmp bh = some (-1, none)) ∨
        ∃ i, IsExtremum c mode (contents bh) i ∧
          modeExtremum c.cmp bh = some (0, some i)) := by
  have hstep : ∀ (bh : BinHeap K V) (bag : Multiset (K × V)) (op : BinheapOp K V),
      (Consistent c bh ∧ bh.mode = mode ∧ contents bh = bag) →
      ∃ bh' o bag', stepOp c.cmp bh op = some (bh', o) ∧ bagStep c mode bag op o bag' ∧
        (Consistent c bh' ∧ bh'.mode = mode ∧ contents bh' = bag') := by
    rintro bh bag op ⟨h, rfl, rfl⟩
    obtain ⟨bh', o, hrun, hbag, h', hmode⟩ := stepOp_refines h op
    exact ⟨bh', o, contents bh', hrun, hbag, h', hmode, rfl⟩
  obtain ⟨bh, outs, bag, hrun, href, h, rfl, rfl⟩ :=
    runSteps_refines_choice hstep ops (binheapCreate mode) 0
      ⟨Consistent.create c mode, rfl, Heap.bag_empty⟩
  refine ⟨bh, outs, hrun, href, h, rfl, h.inForest_iff, h.head_eq_none_iff, ?_⟩
  rw [modeExtremum_eq]
  exact h.peekExtremum_mode

theorem consistent_of_run {ops : List (BinheapOp K V)} {outs : List (ℤ × Option V)}
    (h : runSteps (stepOp c.cmp) (binheapCreate mode) ops = some (bh, outs)) :
    Consistent c bh ∧ bh.mode = mode := by
  obtain ⟨bh', outs', hrun, -, hcons, hmode, -⟩ := binheap_refines_bag c mode ops
  rw [h] at hrun
  cases hrun
  exact ⟨hcons, hmode⟩

end BinHeap
end LibHL
