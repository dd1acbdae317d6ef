import LibHL.BinHeap.Merge

/-!
# What becomes of the heaps after a merge

A node keeps its pointer to the heap it was inserted into, and a deletion works on the
tree list, the head and the counter of that heap.  So a deletion of an old node from the
merged heap does not reach the counter of the merged heap.  The heaps that were merged
keep their counters and heads.
-/

namespace LibHL
namespace BinHeap

variable {K V : Type}

/-- The calls to a heap. -/
inductive HeapCall (K V : Type) where
  | insert (key : K) (value : V)
  | maximum
  | minimum
  | deleteMaximum
  | deleteMinimum
  | count

/-- What a call returns and hands out. -/
inductive Answer (K V : Type) where
  | code (ret : ℤ)
  | item (ret : ℤ) (found : Option (K × V))
  | value (ret : ℤ) (found : Option V)
  | count (n : ℤ)
  deriving DecidableEq

/-- A call to a heap of its own. -/
def callOne (cmp : K → K → ℤ) (bh : BinHeap K V) :
    HeapCall K V → Option (BinHeap K V × Answer K V)
  | .insert key value => (binheapInsert cmp bh key value).map fun r => (r.1, .code r.2)
  | .maximum => (binheapMaximum cmp bh).map fun r => (bh, .item r.1 r.2)
  | .minimum => (binheapMinimum cmp bh).map fun r => (bh, .item r.1 r.2)
  | .deleteMaximum => (binheapDeleteMaximum cmp bh).map fun r => (r.1, .value r.2.1 r.2.2)
  | .deleteMinimum => (binheapDeleteMinimum cmp bh).map fun r => (r.1, .value r.2.1 r.2.2)
  | .count => some (bh, .count (binheapCount bh))

namespace Binheaps

/-- One of the heaps, with the nodes of all. -/
def get (w : Binheaps K V) (name : HeapName) : BinHeap K V where
  nodes := w.nodes
  trees := (w.fields name).trees
  head := (w.fields name).head
  count := (w.fields name).count
  mode := (w.fields name).mode

/-- Write one of the heaps back. -/
def set (w : Binheaps K V) (name : HeapName) (bh : BinHeap K V) : Binheaps K V where
  nodes := bh.nodes
  owner := w.owner
  fields := Function.update w.fields name ⟨bh.trees, bh.head, bh.count, bh.mode⟩

/-- `binheap_delete_minimum` and `binheap_delete_maximum`, where the node is destroyed in
the heap it points to. -/
def deleteExtremum (cmp : K → K → ℤ) (name : HeapName) (side : BinheapMode)
    (w : Binheaps K V) : Option (Binheaps K V × Answer K V) := do
  let (node, index) ← getExtremum cmp (w.get name) side
  match node with
  | none => some (w, .value (-1) none)
  | some a => do
      let n ← w.nodes a
      let bh ← binomialTreeNodeDestroy cmp (w.get (w.owner a)) a index
      some (w.set (w.owner a) bh, .value 0 (some n.value))

/-- A call to one of the heaps. -/
def call (cmp : K → K → ℤ) (name : HeapName) (w : Binheaps K V) :
    HeapCall K V → Option (Binheaps K V × Answer K V)
  | .insert key value => do
      let r ← binheapInsert cmp (w.get name) key value
      let w' := w.set name r.1
      some ({ w' with owner := Function.update w.owner w.nodes.brk name }, .code r.2)
  | .maximum => (binheapMaximum cmp (w.get name)).map fun r => (w, .item r.1 r.2)
  | .minimum => (binheapMinimum cmp (w.get name)).map fun r => (w, .item r.1 r.2)
  | .deleteMaximum => deleteExtremum cmp name .max w
  | .deleteMinimum => deleteExtremum cmp name .min w
  | .count => some (w, .count (binheapCount (w.get name)))

/-- The merged heap answers every sequence of calls as the heap `bh` does. -/
def LikeHeap (cmp : K → K → ℤ) (w : Binheaps K V) (bh : BinHeap K V) : Prop :=
  ∀ calls, (runSteps (call cmp .merged) w calls).map Prod.snd =
    (runSteps (callOne cmp) bh calls).map Prod.snd

/-- A heap without items: its count is zero, and there is no extremum. -/
def LikeEmpty (cmp : K → K → ℤ) (w : Binheaps K V) (name : HeapName) : Prop :=
  binheapCount (w.get name) = 0 ∧ binheapMaximum cmp (w.get name) = some (-1, none) ∧
    binheapMinimum cmp (w.get name) = some (-1, none)

end Binheaps

/-- Insert items one after the other. -/
def insertOps (items : List (K × V)) : List (BinheapOp K V) :=
  items.map fun i => .insert i.1 i.2

/-- A heap of keys, built by insertions. -/
def heapOf (mode : BinheapMode) (keys : List ℕ) : Option (BinHeap ℕ Unit × List (ℤ × Option Unit)) :=
  runSteps (stepOp natComparator.cmp) (binheapCreate mode) (insertOps (keys.map fun k => (k, ())))

/-- The end that a heap is not organised for. -/
def otherEnd : BinheapMode → BinheapMode
  | .max => .min
  | .min => .max

/-- The deletion at the end that a heap is not organised for. -/
def deleteOther : BinheapMode → HeapCall K V
  | .max => .deleteMinimum
  | .min => .deleteMaximum

variable {c : Comparator K} {mode : BinheapMode} {bh bh₁ bh₂ : BinHeap K V} {a : Addr}
  {n : BinomialTreeNode K V}

theorem ne_otherEnd (mode : BinheapMode) : mode ≠ otherEnd mode := by
  cases mode with
  | max => exact nofun
  | min => exact nofun

theorem call_deleteOther (cmp : K → K → ℤ) (mode : BinheapMode) (name : HeapName)
    (w : Binheaps K V) :
    w.call cmp name (deleteOther mode) = w.deleteExtremum cmp name (otherEnd mode) := by
  cases mode with
  | max => rfl
  | min => rfl

theorem callOne_deleteOther (cmp : K → K → ℤ) (mode : BinheapMode) (bh : BinHeap K V) :
    callOne cmp bh (deleteOther mode) =
      (deleteExtremum cmp bh (otherEnd mode)).map fun r => (r.1, .value r.2.1 r.2.2) := by
  cases mode with
  | max => rfl
  | min => rfl

/-! ## A heap of its own -/

theorem Consistent.count_eq_card (h : Consistent c bh) : bh.count = (contents bh).card := by
  rw [h.count, contents, Heap.card_bag]

/-- A deletion from a heap of its own counts down. -/
theorem callOne_deletes (h : Consistent c bh) (hne : contents bh ≠ 0) (mode : BinheapMode) :
    ∃ bh' v, runSteps (callOne c.cmp) bh [deleteOther mode, .count] =
      some (bh', [.value 0 (some v), .count (bh.count - 1)]) := by
  obtain ⟨bh', o, hrun, h', -, hcase⟩ := deleteExtremum_spec h (otherEnd mode)
  rcases hcase with ⟨-, hzero, -⟩ | ⟨i, -, ho, hbag⟩
  · exact absurd hzero hne
  · subst ho
    have hcount : binheapCount bh' = bh.count - 1 := by
      rw [binheapCount, h.count_eq_card, h'.count_eq_card, hbag, Multiset.card_cons]
      omega
    have hcall : callOne c.cmp bh (deleteOther mode) = some (bh', .value 0 (some i.2)) := by
      rw [callOne_deleteOther, hrun]
      rfl
    refine ⟨bh', i.2, ?_⟩
    rw [runSteps_cons_of_step hcall]
    simp [runSteps, callOne, hcount]

/-! ## The merged heap -/

/-- A node without children is destroyed through a heap without trees. -/
theorem binomialTreeNodeDestroy_leaf (c : Comparator K) (hn : bh.nodes a = some n)
    (hleaf : n.children = []) (hpar : ∀ p, n.parent = some p → p ∈ bh.nodes.live)
    (htrees : bh.trees = []) (i : ℕ) :
    ∃ bh', binomialTreeNodeDestroy c.cmp bh a i = some bh' := by
  have hrefresh : ∀ bh₁ : BinHeap K V, bh₁.trees = [] →
      ∃ hd, refreshHead c.cmp bh₁ a = some { bh₁ with head := hd } := by
    intro bh₁ hnil
    by_cases hhead : bh₁.head = some a
    · obtain ⟨hd, hupd, -⟩ := updateHead_reads c bh₁ (by simp [hnil])
      exact ⟨hd, by rw [refreshHead, if_pos hhead, hupd]⟩
    · exact ⟨bh₁.head, by rw [refreshHead, if_neg hhead]⟩
  cases hp : n.parent with
  | some p =>
      obtain ⟨q, hq⟩ := Heap.exists_of_mem_live (hpar p hp)
      let nodes' := bh.nodes.put p { q with children := q.children.erase a }
      obtain ⟨m, hm, -⟩ := (sameItems_put_children hq (q.children.erase a)).exists_eq_some hn
      obtain ⟨hd, hhead⟩ := hrefresh { bh with nodes := nodes' } htrees
      refine ⟨{ bh with nodes := nodes'.kill a, head := hd, count := bh.count - 1 }, ?_⟩
      simp [binomialTreeNodeDestroy, hn, unlinkNode, hp, leaveParent, Heap.modify_eq_some _ hq,
        hleaf, handOver, addChildren, hhead, nodes', Heap.free_eq_some hm]
  | none =>
      obtain ⟨k, hremove⟩ : ∃ k, removeTree bh.trees a i = ([], k) := by
        rw [htrees]
        by_cases hi : i = 0
        · exact ⟨0, by simp [removeTree, hi]⟩
        · exact ⟨i + 1, by simp [removeTree, hi]⟩
      obtain ⟨hd, hhead⟩ := hrefresh { bh with trees := [] } rfl
      refine ⟨{ bh with trees := [], nodes := bh.nodes.kill a, head := hd,
                        count := bh.count - 1 }, ?_⟩
      rw [binomialTreeNodeDestroy, hn]
      simp only [Option.bind_eq_bind, Option.bind_some, unlinkNode, hp, replaceRoot,
        findChildOf_nil c.cmp bh.mode hleaf, hleaf, handOver, orphanChildren, hremove, hhead,
        Heap.free_eq_some hn]

/-- The merged heap deletes a leaf at the end it is not organised for, and does not
count down. -/
theorem merged_deletes (c : Comparator K) {s : MergeState K V} (hne : s.newList ≠ [])
    (hf : Forest s.nodes.live s.newList (parentOf s.nodes) (childrenOf s.nodes))
    (hnil₁ : s.src₁.trees = []) (hnil₂ : s.src₂.trees = []) :
    ∃ w' v, runSteps (Binheaps.call c.cmp .merged) (mergeResult bh₁ bh₂ s)
      [deleteOther bh₁.mode, .count] =
        some (w', [.value 0 (some v), .count (bh₁.count + bh₂.count)]) := by
  let w := mergeResult bh₁ bh₂ s
  have hlive : ∀ r ∈ s.newList, r ∈ s.nodes.live := fun r hr => hf.mem_of_root hr
  obtain ⟨i, r, hi, hir, -⟩ :=
    binheapMaxmin_dominates c (w.get .merged) (otherEnd bh₁.mode) hlive hne
  have hir' : s.newList[i]? = some r := hir
  have hrlive := hlive r (List.mem_of_getElem? hir')
  obtain ⟨rank, hrank, hcard⟩ := hf.exists_rank_lt
  have hfuel : rank r < s.nodes.brk :=
    Nat.lt_of_lt_of_le (hcard r hrlive) s.nodes.card_live_le_brk
  obtain ⟨l, hl, hdesc, hleaf, -⟩ :=
    descend_spec c hf hrank (otherEnd bh₁.mode) s.nodes.brk r hrlive hfuel
  obtain ⟨n, hn⟩ := Heap.exists_of_mem_live hl
  have hget : getExtremum c.cmp (w.get .merged) (otherEnd bh₁.mode) = some (some l, i) := by
    have hdesc' : descend c.cmp (otherEnd bh₁.mode) (w.get .merged).nodes
        (w.get .merged).nodes.brk r = some l := hdesc
    have hmode : (w.get .merged).mode ≠ otherEnd bh₁.mode := ne_otherEnd bh₁.mode
    simp [getExtremum, hmode, hi, hir, hdesc']
  have howner : w.owner l ≠ .merged := by
    show (if l < bh₁.nodes.brk then HeapName.first else .second) ≠ .merged
    by_cases hlt : l < bh₁.nodes.brk
    · rw [if_pos hlt]
      decide
    · rw [if_neg hlt]
      decide
  have htrees : (w.get (w.owner l)).trees = [] := by
    cases hname : w.owner l with
    | first => exact hnil₁
    | second => exact hnil₂
    | merged => exact absurd hname howner
  have hnl : (w.get (w.owner l)).nodes l = some n := hn
  obtain ⟨bh', hdestroy⟩ := binomialTreeNodeDestroy_leaf c hnl
    (by rw [← childrenOf_eq hn]; exact hleaf)
    (fun p hp => hf.parent l hl p (by rw [parentOf_eq hn, hp])) htrees i
  have hcall : Binheaps.call c.cmp .merged w (deleteOther bh₁.mode) =
      some (w.set (w.owner l) bh', .value 0 (some n.value)) := by
    have hwn : w.nodes l = some n := hn
    rw [call_deleteOther]
    simp [Binheaps.deleteExtremum, hget, hwn, hdestroy]
  have hcount : binheapCount ((w.set (w.owner l) bh').get .merged) =
      bh₁.count + bh₂.count := by
    show (Function.update w.fields (w.owner l) _ HeapName.merged).count = _
    rw [Function.update_of_ne howner.symm]
    rfl
  refine ⟨w.set (w.owner l) bh', n.value, ?_⟩
  rw [runSteps_cons_of_step hcall]
  simp [runSteps, Binheaps.call, hcount]

/-- Insertions add their items. -/
theorem contents_of_inserts : ∀ (items : List (K × V)) {bh bh' : BinHeap K V}
    {outs : List (ℤ × Option V)}, Consistent c bh →
    runSteps (stepOp c.cmp) bh (insertOps items) = some (bh', outs) →
    Consistent c bh' ∧ contents bh' = (items : Multiset (K × V)) + contents bh := by
  intro items
  induction items with
  | nil =>
      intro bh bh' outs h hrun
      cases hrun
      exact ⟨h, (zero_add _).symm⟩
  | cons i items ih =>
      intro bh bh' outs h hrun
      obtain ⟨bh₁, o, outs', hstep, hrest, -⟩ := runSteps_cons_eq_some hrun
      obtain ⟨bh₂, hins, h₂, -, hbag⟩ := binheapInsert_spec h i.1 i.2
      have heq : bh₁ = bh₂ := by
        simp only [stepOp, hins, Option.bind_eq_bind, Option.bind_some, Option.some.injEq,
          Prod.mk.injEq] at hstep
        exact hstep.1.symm
      subst heq
      obtain ⟨h', hbag'⟩ := ih h₂ hrest
      refine ⟨h', ?_⟩
      rw [hbag', hbag, ← Multiset.cons_coe, Multiset.add_cons, Multiset.cons_add]

theorem Consistent.count_ne_zero (h : Consistent c bh) (hne : contents bh ≠ 0) :
    bh.count ≠ 0 := by
  have hpos := Multiset.card_pos.mpr hne
  rw [h.count_eq_card]
  omega

/-- For every two heaps of the same mode with items, the merged heap does not answer as a
heap with their items does, and neither of the two answers as an empty heap does. -/
theorem merged_never_like_fresh (c : Comparator K) {mode : BinheapMode} {bh₁ bh₂ : BinHeap K V}
    {ops₁ ops₂ : List (BinheapOp K V)} {outs₁ outs₂ : List (ℤ × Option V)}
    (hrun₁ : runSteps (stepOp c.cmp) (binheapCreate mode) ops₁ = some (bh₁, outs₁))
    (hrun₂ : runSteps (stepOp c.cmp) (binheapCreate mode) ops₂ = some (bh₂, outs₂))
    (hne₁ : contents bh₁ ≠ 0) (hne₂ : contents bh₂ ≠ 0) :
    ∃ w, binheapMerge c.cmp bh₁ bh₂ = some (some w) ∧
      (∀ (items : List (K × V)) (bh : BinHeap K V) (outs : List (ℤ × Option V)),
        (items : Multiset (K × V)) = contents bh₁ + contents bh₂ →
        runSteps (stepOp c.cmp) (binheapCreate mode) (insertOps items) = some (bh, outs) →
        ∃ calls answers answers',
          (runSteps (Binheaps.call c.cmp .merged) w calls).map Prod.snd = some answers ∧
          (runSteps (callOne c.cmp) bh calls).map Prod.snd = some answers' ∧
          answers ≠ answers') ∧
      ¬ w.LikeEmpty c.cmp .first ∧ ¬ w.LikeEmpty c.cmp .second := by
  obtain ⟨h₁, hmode₁⟩ := consistent_of_run hrun₁
  obtain ⟨h₂, hmode₂⟩ := consistent_of_run hrun₂
  obtain ⟨s, hmerge, -, hf, hsame, hnil₁, hnil₂⟩ :=
    binheapMerge_spec h₁ h₂ (hmode₁.trans hmode₂.symm)
  have hnew : s.newList ≠ [] := by
    intro hnil
    rw [hnil] at hf
    have hperm := flatMap_subtree_perm hf
    have hempty : s.nodes.live = ∅ := Finset.toList_eq_nil.mp hperm.symm.eq_nil
    rw [hsame.live_eq, jointNodes, Heap.live_beside, Finset.union_eq_empty] at hempty
    exact hne₁ (Heap.bag_eq_zero_iff.mpr hempty.1)
  refine ⟨mergeResult bh₁ bh₂ s, hmerge, ?_, ?_, ?_⟩
  · intro items bh outs hitems hrun
    obtain ⟨h, hbag⟩ := contents_of_inserts items (Consistent.create c mode) hrun
    have hcontents : contents bh = contents bh₁ + contents bh₂ := by
      rw [hbag, hitems]
      exact add_zero _
    have hcount : bh.count = bh₁.count + bh₂.count := by
      rw [h.count_eq_card, h₁.count_eq_card, h₂.count_eq_card, hcontents, Multiset.card_add]
      rfl
    have hne : contents bh ≠ 0 := by
      intro hzero
      have hcard := congrArg Multiset.card (hcontents.symm.trans hzero)
      have hpos := Multiset.card_pos.mpr hne₁
      rw [Multiset.card_add, Multiset.card_zero] at hcard
      omega
    obtain ⟨w', v, hmerged⟩ := merged_deletes c hnew hf hnil₁ hnil₂
    obtain ⟨bh', v', hfresh⟩ := callOne_deletes h hne bh₁.mode
    refine ⟨_, _, _, congrArg (Option.map Prod.snd) hmerged,
      congrArg (Option.map Prod.snd) hfresh, ?_⟩
    intro heq
    have hcounts : Answer.count (bh₁.count + bh₂.count) = Answer.count (bh.count - 1) :=
      (List.cons.inj (List.cons.inj heq).2).1
    have hcounts' := Answer.count.inj hcounts
    omega
  · exact fun hempty => h₁.count_ne_zero hne₁ hempty.1
  · exact fun hempty => h₂.count_ne_zero hne₂ hempty.1

/-- A heap of three items and one of a single item. -/
theorem merged_never_like_fresh_three_one :
    ∃ bh₁ bh₂ outs₁ outs₂ w, heapOf .max [3, 1, 2] = some (bh₁, outs₁) ∧
      heapOf .max [5] = some (bh₂, outs₂) ∧ contents bh₁ ≠ 0 ∧ contents bh₂ ≠ 0 ∧
      binheapMerge natComparator.cmp bh₁ bh₂ = some (some w) ∧
      ¬ w.LikeEmpty natComparator.cmp .first ∧ ¬ w.LikeEmpty natComparator.cmp .second := by
  have hcounts : ((heapOf .max [3, 1, 2]).bind fun r₁ => (heapOf .max [5]).map fun r₂ =>
      (r₁.1.count, r₂.1.count)) = some (3, 1) := by
    decide
  obtain ⟨⟨bh₁, outs₁⟩, hrun₁, hrest⟩ := Option.bind_eq_some_iff.mp hcounts
  obtain ⟨⟨bh₂, outs₂⟩, hrun₂, hpair⟩ := Option.map_eq_some_iff.mp hrest
  obtain ⟨hcount₁, hcount₂⟩ := Prod.mk.inj hpair
  have hne₁ : contents bh₁ ≠ 0 := by
    intro hzero
    have hcard := (consistent_of_run hrun₁).1.count_eq_card
    rw [hcount₁, hzero] at hcard
    cases hcard
  have hne₂ : contents bh₂ ≠ 0 := by
    intro hzero
    have hcard := (consistent_of_run hrun₂).1.count_eq_card
    rw [hcount₂, hzero] at hcard
    cases hcard
  obtain ⟨w, hmerge, -, hfirst, hsecond⟩ :=
    merged_never_like_fresh natComparator.toComparator hrun₁ hrun₂ hne₁ hne₂
  exact ⟨bh₁, bh₂, outs₁, outs₂, w, hrun₁, hrun₂, hne₁, hne₂, hmerge, hfirst, hsecond⟩

/-- Two heaps of one item each: after a deletion the merged heap still counts two. -/
theorem merged_count_after_delete :
    ¬ ∀ (keys₁ keys₂ : List ℕ) (bh₁ bh₂ bh : BinHeap ℕ Unit)
      (outs₁ outs₂ outs : List (ℤ × Option Unit)) (w : Binheaps ℕ Unit),
      keys₁ ≠ [] → keys₂ ≠ [] → heapOf .max keys₁ = some (bh₁, outs₁) →
      heapOf .max keys₂ = some (bh₂, outs₂) → heapOf .max (keys₁ ++ keys₂) = some (bh, outs) →
      binheapMerge natComparator.cmp bh₁ bh₂ = some (some w) →
      w.LikeHeap natComparator.cmp bh ∧ w.LikeEmpty natComparator.cmp .first ∧
        w.LikeEmpty natComparator.cmp .second := by
  intro hall
  have hmerged : ((heapOf .max [1]).bind fun r₁ => (heapOf .max [2]).bind fun r₂ =>
      (binheapMerge natComparator.cmp r₁.1 r₂.1).bind fun r => r.bind fun w =>
        (runSteps (Binheaps.call natComparator.cmp .merged) w [.deleteMinimum, .count]).map
          Prod.snd) = some [.value 0 (some ()), .count 2] := by
    decide
  have hfresh : ((heapOf .max [1, 2]).bind fun r =>
      (runSteps (callOne natComparator.cmp) r.1 [.deleteMinimum, .count]).map Prod.snd) =
        some [.value 0 (some ()), .count 1] := by
    decide
  obtain ⟨⟨bh₁, outs₁⟩, hrun₁, hrest⟩ := Option.bind_eq_some_iff.mp hmerged
  obtain ⟨⟨bh₂, outs₂⟩, hrun₂, hrest⟩ := Option.bind_eq_some_iff.mp hrest
  obtain ⟨r, hmerge, hrest⟩ := Option.bind_eq_some_iff.mp hrest
  obtain ⟨w, hw, hanswers⟩ := Option.bind_eq_some_iff.mp hrest
  obtain ⟨⟨bh, outs⟩, hrun, hanswers'⟩ := Option.bind_eq_some_iff.mp hfresh
  rw [hw] at hmerge
  have hlike := (hall [1] [2] bh₁ bh₂ bh outs₁ outs₂ outs w (List.cons_ne_nil _ _)
    (List.cons_ne_nil _ _) hrun₁ hrun₂ hrun hmerge).1 [.deleteMinimum, .count]
  rw [hanswers, hanswers'] at hlike
  exact absurd hlike (by decide)

end BinHeap
end LibHL
