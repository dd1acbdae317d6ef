import LibHL.BinHeap.Invariant

/-!
# The operations of the binomial heap keep it consistent

Every operation is a relinking of nodes, possibly after an allocation or before
a release.  The relinking steps are specified by how they change parents and
children; the forest lemmas then give the new forest.
-/

namespace LibHL
namespace BinHeap

variable {K V : Type} {nodes nodes' nodes'' : Heap (BinomialTreeNode K V)}
  {a b d p r x : Addr} {n m : BinomialTreeNode K V} {bh : BinHeap K V}
  {trees trees' cs : List Addr} {mode : BinheapMode}

/-! ## Relinking -/

theorem parentOf_put_children (ha : nodes a = some n) (l : List Addr) (x : Addr) :
    parentOf (nodes.put a { n with children := l }) x = parentOf nodes x := by
  by_cases hx : x = a
  · subst hx
    rw [parentOf_eq (Heap.put_self ha), parentOf_eq ha]
  · rw [parentOf, parentOf, Heap.put_of_ne hx]

theorem childrenOf_put_children_self (ha : nodes a = some n) (l : List Addr) :
    childrenOf (nodes.put a { n with children := l }) a = l :=
  childrenOf_eq (Heap.put_self ha)

theorem childrenOf_put_of_ne (v : BinomialTreeNode K V) (hx : x ≠ a) :
    childrenOf (nodes.put a v) x = childrenOf nodes x := by
  rw [childrenOf, childrenOf, Heap.put_of_ne hx]

theorem parentOf_put_self (ha : nodes a = some n) (q : Option Addr) :
    parentOf (nodes.put a { n with parent := q }) a = q :=
  parentOf_eq (Heap.put_self ha)

theorem parentOf_put_of_ne (v : BinomialTreeNode K V) (hx : x ≠ a) :
    parentOf (nodes.put a v) x = parentOf nodes x := by
  rw [parentOf, parentOf, Heap.put_of_ne hx]

theorem childrenOf_put_parent (ha : nodes a = some n) (q : Option Addr) (x : Addr) :
    childrenOf (nodes.put a { n with parent := q }) x = childrenOf nodes x := by
  by_cases hx : x = a
  · subst hx
    rw [childrenOf_eq (Heap.put_self ha), childrenOf_eq ha]
  · exact childrenOf_put_of_ne _ hx

theorem sameItems_put_children (ha : nodes a = some n) (l : List Addr) :
    SameItems nodes (nodes.put a { n with children := l }) :=
  Heap.sameThrough_put ha rfl

theorem sameItems_put_parent (ha : nodes a = some n) (q : Option Addr) :
    SameItems nodes (nodes.put a { n with parent := q }) :=
  Heap.sameThrough_put ha rfl

/-- The second heap arises from the first one when `p` adopts the nodes `cs`. -/
structure Adopts (nodes nodes' : Heap (BinomialTreeNode K V)) (p : Addr)
    (cs : List Addr) : Prop where
  same : SameItems nodes nodes'
  adopted : ∀ x ∈ cs, parentOf nodes' x = some p
  parentOther : ∀ x, x ∉ cs → parentOf nodes' x = parentOf nodes x
  children : childrenOf nodes' p = childrenOf nodes p ++ cs
  childrenOther : ∀ x, x ≠ p → childrenOf nodes' x = childrenOf nodes x

theorem binomialTreeNodeAdd_adopts (hp : p ∈ nodes.live) (hr : r ∈ nodes.live)
    (hne : r ≠ p) :
    ∃ nodes', binomialTreeNodeAdd nodes p r = some nodes' ∧ Adopts nodes nodes' p [r] := by
  obtain ⟨n, hn⟩ := Heap.exists_of_mem_live hp
  obtain ⟨m, hm⟩ := Heap.exists_of_mem_live hr
  let nodes₁ := nodes.put p { n with children := n.children ++ [r] }
  have hm₁ : nodes₁ r = some m := by rw [Heap.put_of_ne hne, hm]
  have hmod : nodes₁.modify r (fun n => { n with parent := some p }) =
      some (nodes₁.put r { m with parent := some p }) := Heap.modify_eq_some _ hm₁
  refine ⟨nodes₁.put r { m with parent := some p }, ?_, ?_⟩
  · rw [binomialTreeNodeAdd, Heap.modify_eq_some _ hn]
    exact hmod
  refine ⟨(sameItems_put_children hn _).trans (sameItems_put_parent hm₁ _), ?_, ?_, ?_, ?_⟩
  · intro x hx
    rw [List.mem_singleton.mp hx]
    exact parentOf_put_self hm₁ _
  · intro x hx
    rw [parentOf_put_of_ne _ (fun heq => hx (List.mem_singleton.mpr heq)),
      parentOf_put_children hn]
  · rw [childrenOf_put_parent hm₁, childrenOf_put_children_self hn, childrenOf_eq hn]
  · intro x hx
    rw [childrenOf_put_parent hm₁, childrenOf_put_of_ne _ hx]

theorem Adopts.nil : Adopts nodes nodes p [] where
  same := Heap.SameThrough.refl nodes
  adopted := by simp
  parentOther := fun _ _ => rfl
  children := by simp
  childrenOther := fun _ _ => rfl

theorem Adopts.cons (h₁ : Adopts nodes nodes' p [r]) (h₂ : Adopts nodes' nodes'' p cs) :
    Adopts nodes nodes'' p (r :: cs) where
  same := h₁.same.trans h₂.same
  adopted := by
    intro x hx
    by_cases hxcs : x ∈ cs
    · exact h₂.adopted x hxcs
    · rw [h₂.parentOther x hxcs]
      rcases List.mem_cons.mp hx with rfl | hx
      · exact h₁.adopted x List.mem_cons_self
      · exact absurd hx hxcs
  parentOther := by
    intro x hx
    rw [List.mem_cons, not_or] at hx
    rw [h₂.parentOther x hx.2, h₁.parentOther x (by simpa using hx.1)]
  children := by
    rw [h₂.children, h₁.children, List.append_assoc]
    rfl
  childrenOther := by
    intro x hx
    rw [h₂.childrenOther x hx, h₁.childrenOther x hx]

theorem addChildren_adopts :
    ∀ (cs : List Addr) (nodes : Heap (BinomialTreeNode K V)), p ∈ nodes.live →
      (∀ x ∈ cs, x ∈ nodes.live) → p ∉ cs →
      ∃ nodes', addChildren p cs nodes = some nodes' ∧ Adopts nodes nodes' p cs := by
  intro cs
  induction cs with
  | nil =>
      intro nodes _ _ _
      exact ⟨nodes, rfl, Adopts.nil⟩
  | cons r cs ih =>
      intro nodes hp hcs hnot
      rw [List.mem_cons, not_or] at hnot
      obtain ⟨nodes₁, hadd, had₁⟩ := binomialTreeNodeAdd_adopts hp
        (hcs r List.mem_cons_self) (Ne.symm hnot.1)
      have hlive := had₁.same.live_eq
      obtain ⟨nodes₂, hrest, had₂⟩ := ih nodes₁ (by rwa [hlive])
        (fun x hx => by rw [hlive]; exact hcs x (List.mem_cons_of_mem r hx)) hnot.2
      refine ⟨nodes₂, ?_, had₁.cons had₂⟩
      rw [addChildren, hadd]
      exact hrest

variable {c : Comparator K}

/-- Relinked nodes are heap-ordered if the new forest only has edges that go
down in precedence. -/
theorem ordered_of_forest (hs : SameItems nodes nodes')
    (hforest : Forest nodes.live trees' (parentOf nodes') (childrenOf nodes'))
    (habove : ∀ x ∈ nodes.live, ∀ y ∈ childrenOf nodes' x, Above c.cmp mode nodes x y) :
    Ordered c mode nodes' trees' := by
  refine ⟨?_, ?_⟩
  · rw [hs.live_eq]
    exact hforest
  · intro x hx y hy
    rw [hs.live_eq] at hx
    exact hs.above_iff.mpr (habove x hx y hy)

/-- A root adopts another one that it has precedence over. -/
theorem Ordered.adopt (h : Ordered c mode nodes trees) (hp : p ∈ trees) (hr : r ∈ trees)
    (hne : p ≠ r) (hpr : Above c.cmp mode nodes p r) (had : Adopts nodes nodes' p [r])
    (htrees : trees'.Perm (trees.erase r)) : Ordered c mode nodes' trees' := by
  refine ordered_of_forest had.same ?_ ?_
  · refine h.forest.link hp hr hne (had.adopted r List.mem_cons_self) ?_ had.children ?_ htrees
    · intro x _ hx
      exact had.parentOther x (by simpa using hx)
    · intro x _ hx
      exact had.childrenOther x hx
  · intro x hx y hy
    by_cases hxp : x = p
    · subst hxp
      rw [had.children, List.mem_append, List.mem_singleton] at hy
      rcases hy with hy | rfl
      · exact h.above x hx y hy
      · exact hpr
    · rw [had.childrenOther x hxp] at hy
      exact h.above x hx y hy

/-! ## Insertion -/

theorem above_of_key (hn : nodes a = some n) (hm : nodes b = some m)
    {cmp : K → K → ℤ} (h : HasPrecedence cmp mode n.key m.key) :
    Above cmp mode nodes a b := by
  intro k l hk hl
  rw [keyOf_eq hn] at hk
  rw [keyOf_eq hm] at hl
  cases hk
  cases hl
  exact h

/-- The rule for the merging loop: what a link keeps and takes from one order to the
next holds when the loop ends, which is at a tree of another order. -/
theorem mergeTrees_rule (I : ℕ → Heap (BinomialTreeNode K V) → Addr → List Addr → Prop)
    (hlink : ∀ {order : ℕ} {nodes nodes' : Heap (BinomialTreeNode K V)} {node tree p r : Addr}
      {trees : List Addr}, Ordered c mode nodes (node :: tree :: trees) →
      I order nodes node (tree :: trees) → (childrenOf nodes tree).length = order →
      (p = node ∧ r = tree) ∨ (p = tree ∧ r = node) →
      (p = node ↔ Above c.cmp mode nodes node tree) → Adopts nodes nodes' p [r] →
      I (order + 1) nodes' p trees) :
    ∀ (trees : List Addr) (node : Addr) (order : ℕ) (nodes : Heap (BinomialTreeNode K V)),
      Ordered c mode nodes (node :: trees) → I order nodes node trees →
      ∃ nodes' node' trees' order', mergeTrees c.cmp mode trees node order nodes =
          some (nodes', node', trees') ∧
        SameItems nodes nodes' ∧ Ordered c mode nodes' (node' :: trees') ∧
        I order' nodes' node' trees' ∧
        ∀ tree ∈ trees'.head?, (childrenOf nodes' tree).length ≠ order' := by
  intro trees
  induction trees with
  | nil =>
      intro node order nodes h hI
      exact ⟨nodes, node, [], order, rfl, Heap.SameThrough.refl nodes, h, hI, by simp⟩
  | cons tree trees ih =>
      intro node order nodes h hI
      have hnode : node ∈ node :: tree :: trees := List.mem_cons_self
      have htree : tree ∈ node :: tree :: trees := List.mem_cons_of_mem _ List.mem_cons_self
      obtain ⟨t, ht⟩ := Heap.exists_of_mem_live (h.trees_live tree htree)
      obtain ⟨n, hn⟩ := Heap.exists_of_mem_live (h.trees_live node hnode)
      have hne : node ≠ tree := by
        rintro rfl
        exact (List.nodup_cons.mp h.forest.rootsNodup).1 List.mem_cons_self
      by_cases horder : t.children.length = order
      · have horder' : (childrenOf nodes tree).length = order := by rw [childrenOf_eq ht, horder]
        by_cases hprec : HasPrecedence c.cmp mode n.key t.key
        · obtain ⟨nodes₁, hmerge, had⟩ := binomialTreeNodeAdd_adopts
            (h.trees_live node hnode) (h.trees_live tree htree) hne.symm
          have h₁ : Ordered c mode nodes₁ (node :: trees) := by
            refine h.adopt hnode htree hne (above_of_key hn ht hprec) had ?_
            rw [List.erase_cons_tail (by simpa using hne), List.erase_cons_head]
          obtain ⟨nodes', node', trees', order', hrun, hsame, h'⟩ := ih node (order + 1) nodes₁ h₁
            (hlink h hI horder' (Or.inl ⟨rfl, rfl⟩)
              (iff_of_true rfl (above_of_key hn ht hprec)) had)
          refine ⟨nodes', node', trees', order', ?_, had.same.trans hsame, h'⟩
          simp [mergeTrees, ht, hn, horder, hprec, binomialTreeMerge, hmerge, hrun]
        · have hprec' := (hasPrecedence_total c mode n.key t.key).resolve_left hprec
          obtain ⟨nodes₁, hmerge, had⟩ := binomialTreeNodeAdd_adopts
            (h.trees_live tree htree) (h.trees_live node hnode) hne
          have h₁ : Ordered c mode nodes₁ (tree :: trees) := by
            refine h.adopt htree hnode hne.symm (above_of_key ht hn hprec') had ?_
            rw [List.erase_cons_head]
          obtain ⟨nodes', node', trees', order', hrun, hsame, h'⟩ := ih tree (order + 1) nodes₁ h₁
            (hlink h hI horder' (Or.inr ⟨rfl, rfl⟩) (iff_of_false hne.symm
              fun habove => hprec (habove _ _ (keyOf_eq hn) (keyOf_eq ht))) had)
          refine ⟨nodes', node', trees', order', ?_, had.same.trans hsame, h'⟩
          simp [mergeTrees, ht, hn, horder, hprec, binomialTreeMerge, hmerge, hrun]
      · refine ⟨nodes, node, tree :: trees, order, ?_, Heap.SameThrough.refl nodes, h, hI, ?_⟩
        · simp [mergeTrees, ht, hn, horder]
        · simpa [childrenOf_eq ht] using horder

/-- The merging loop keeps the items and the heap order. -/
theorem mergeTrees_ordered (trees : List Addr) (node : Addr) (order : ℕ)
    (nodes : Heap (BinomialTreeNode K V)) (h : Ordered c mode nodes (node :: trees)) :
    ∃ nodes' node' trees', mergeTrees c.cmp mode trees node order nodes =
        some (nodes', node', trees') ∧
      SameItems nodes nodes' ∧ Ordered c mode nodes' (node' :: trees') := by
  obtain ⟨nodes', node', trees', -, hrun, hsame, h', -, -⟩ :=
    mergeTrees_rule (fun _ _ _ _ => True)
      (fun _ _ _ _ _ _ => trivial) trees node order nodes h trivial
  exact ⟨nodes', node', trees', hrun, hsame, h'⟩

theorem updateHead_reads (c : Comparator K) (bh : BinHeap K V)
    (hlive : ∀ a ∈ bh.trees, a ∈ bh.nodes.live) :
    ∃ h, updateHead c.cmp bh = some { bh with head := h } ∧ (h = none → bh.trees = []) ∧
      ∀ r, h = some r → r ∈ bh.trees ∧
        ∀ s ∈ bh.trees, Above c.cmp bh.mode bh.nodes r s := by
  have hside : updateHead c.cmp bh =
      (getExtremum c.cmp { bh with head := none } bh.mode).bind fun r =>
        some { bh with head := r.1 } := by
    unfold updateHead
    cases hmode : bh.mode with
    | max => rfl
    | min => rfl
  by_cases hnil : bh.trees = []
  · have hmax := binheapMaxmin_nil { bh with head := none } c.cmp bh.mode hnil
    refine ⟨none, ?_, fun _ => hnil, ?_⟩
    · rw [hside]
      simp [getExtremum, hmax]
    · intro r hr
      cases hr
  · obtain ⟨i, r, hi, hir, hdom⟩ :=
      binheapMaxmin_dominates c { bh with head := none } bh.mode hlive hnil
    have hir' : bh.trees[i]? = some r := hir
    refine ⟨some r, ?_, ?_, ?_⟩
    · rw [hside]
      simp [getExtremum, hi, hir']
    · intro hnone
      cases hnone
    · rintro s ⟨⟩
      exact ⟨List.mem_of_getElem? hir', hdom⟩

theorem ordered_alloc (h : Ordered c mode nodes trees) (k : K) (v : V) :
    Ordered c mode
      (nodes.alloc { key := k, value := v, parent := none, children := [] }).1
      (nodes.brk :: trees) := by
  set cell : BinomialTreeNode K V := { key := k, value := v, parent := none, children := [] }
  have hnew : (nodes.alloc cell).1 nodes.brk = some cell := by simp [Heap.alloc_apply]
  have hold : ∀ x ∈ nodes.live, (nodes.alloc cell).1 x = nodes x := by
    intro x hx
    have hne : x ≠ nodes.brk := by
      rintro rfl
      exact nodes.brk_notMem_live hx
    rw [Heap.alloc_apply, if_neg hne]
  refine ⟨?_, ?_⟩
  · rw [Heap.live_alloc]
    refine h.forest.addRoot nodes.brk_notMem_live (parentOf_eq hnew) (childrenOf_eq hnew) ?_ ?_
    · intro x hx
      rw [parentOf, parentOf, hold x hx]
    · intro x hx
      rw [childrenOf, childrenOf, hold x hx]
  · intro x hx y hy
    rw [Heap.live_alloc, Finset.mem_insert] at hx
    rcases hx with rfl | hx
    · rw [childrenOf_eq hnew] at hy
      cases hy
    · rw [childrenOf, hold x hx, ← childrenOf] at hy
      intro k₁ k₂ hk₁ hk₂
      rw [keyOf, hold x hx] at hk₁
      rw [keyOf, hold y (h.forest.mem_of_kid hx hy)] at hk₂
      exact h.above x hx y hy k₁ k₂ hk₁ hk₂

/-- `binheap_insert` adds one item, and its trees are those of the merging loop. -/
theorem binheapInsert_merges (h : Consistent c bh) (k : K) (v : V) :
    ∃ bh' node' trees', binheapInsert c.cmp bh k v = some (bh', 0) ∧ Consistent c bh' ∧
      bh'.mode = bh.mode ∧ contents bh' = (k, v) ::ₘ contents bh ∧
      mergeTrees c.cmp bh.mode bh.trees bh.nodes.brk 0
        (bh.nodes.alloc { key := k, value := v, parent := none, children := [] }).1 =
          some (bh'.nodes, node', trees') ∧
      bh'.trees = node' :: trees' := by
  set cell : BinomialTreeNode K V := { key := k, value := v, parent := none, children := [] }
  obtain ⟨nodes', node', trees', hmerge, hsame, hord⟩ :=
    mergeTrees_ordered bh.trees bh.nodes.brk 0 _ (ordered_alloc h.ordered k v)
  have hlive : nodes'.live = insert bh.nodes.brk bh.nodes.live := by
    rw [hsame.live_eq, Heap.live_alloc]
  have hcount : bh.count + 1 = nodes'.live.card := by
    rw [hlive, Finset.card_insert_of_notMem bh.nodes.brk_notMem_live, h.count]
    rfl
  have hbag : nodes'.bag item = (k, v) ::ₘ bh.nodes.bag item := by
    rw [hsame.bag_eq, Heap.bag_alloc]
    rfl
  let bh₁ : BinHeap K V :=
    { bh with nodes := nodes', trees := node' :: trees', count := bh.count + 1 }
  cases hhead : bh.head with
  | none =>
      refine ⟨{ bh₁ with head := some node' }, node', trees', ?_, ⟨hord, hcount, ?_, ?_⟩, rfl,
        hbag, hmerge, rfl⟩
      · simp [binheapInsert, hmerge, hhead, bh₁]
      · intro hnone
        cases hnone
      · -- The new node is the only one, so its key needs no comparison.
        rintro b ⟨⟩
        refine ⟨List.mem_cons_self, ?_⟩
        intro b hb
        have hlive' : nodes'.live = {bh.nodes.brk} := by
          rw [hlive, h.headNone hhead]
          rfl
        have hnode' : node' ∈ nodes'.live := hord.trees_live node' List.mem_cons_self
        have hb' : b ∈ nodes'.live := hb
        rw [hlive', Finset.mem_singleton] at hnode' hb'
        rw [hnode', hb']
        exact above_refl c _
  | some a =>
      obtain ⟨hd, hupd, hnone, htop⟩ := updateHead_reads c bh₁ hord.trees_live
      refine ⟨{ bh₁ with head := hd }, node', trees', ?_, ⟨hord, hcount, ?_, ?_⟩, rfl, hbag,
        hmerge, rfl⟩
      · simp only [bh₁, hhead] at hupd
        simp [binheapInsert, hmerge, hhead, hupd, bh₁]
      · intro hd'
        cases hnone hd'
      · intro r hr
        exact ⟨(htop r hr).1, hord.above_all (htop r hr).2⟩

theorem binheapInsert_spec (h : Consistent c bh) (k : K) (v : V) :
    ∃ bh', binheapInsert c.cmp bh k v = some (bh', 0) ∧ Consistent c bh' ∧
      bh'.mode = bh.mode ∧ contents bh' = (k, v) ::ₘ contents bh := by
  obtain ⟨bh', -, -, hrun, h', hmode, hbag, -, -⟩ := binheapInsert_merges h k v
  exact ⟨bh', hrun, h', hmode, hbag⟩

/-! ## Removal -/

theorem removeTree_eq (hnodup : trees.Nodup) (ha : a ∈ trees) {i : ℕ}
    (hi : i ≠ 0 → trees[i]? = some a) :
    removeTree trees a i = (trees.erase a, trees.idxOf a + 1) := by
  by_cases hzero : i = 0
  · simp [removeTree, hzero, ha]
  · obtain ⟨hlt, hget⟩ := List.getElem?_eq_some_iff.mp (hi hzero)
    have hidx : trees.idxOf a = i := by
      rw [← hget]
      exact hnodup.idxOf_getElem i hlt
    have herase : trees.eraseIdx i = trees.erase a := by
      rw [← hidx, List.eraseIdx_idxOf_eq_erase]
    simp [removeTree, hzero, hidx, herase]

theorem above_kill {cmp : K → K → ℤ} (h : Above cmp mode nodes a b) (d : Addr) :
    Above cmp mode (nodes.kill d) a b := by
  have hkey : ∀ x k, keyOf (nodes.kill d) x = some k → keyOf nodes x = some k := by
    intro x k hx
    by_cases hxd : x = d
    · rw [keyOf, Heap.kill_apply, if_pos hxd] at hx
      cases hx
    · rwa [keyOf, Heap.kill_apply, if_neg hxd] at hx
  intro k l hk hl
  exact h k l (hkey a k hk) (hkey b l hl)

/-- Once a node is cut off and released, the others are heap-ordered if their
forest only has edges that go down in precedence. -/
theorem ordered_kill (hs : SameItems nodes nodes')
    (hforest : Forest (nodes.live.erase a) trees' (parentOf nodes') (childrenOf nodes'))
    (habove : ∀ x ∈ nodes.live.erase a, ∀ y ∈ childrenOf nodes' x,
      Above c.cmp mode nodes x y) : Ordered c mode (nodes'.kill a) trees' := by
  have hlive : (nodes'.kill a).live = nodes.live.erase a := by
    rw [Heap.live_kill, hs.live_eq]
  have hread : ∀ x ∈ nodes.live.erase a, (nodes'.kill a) x = nodes' x := by
    intro x hx
    rw [Heap.kill_apply, if_neg (Finset.ne_of_mem_erase hx)]
  refine ⟨?_, ?_⟩
  · rw [hlive]
    refine hforest.congr ?_ ?_ (List.Perm.refl _)
    · intro x hx
      rw [parentOf, parentOf, hread x hx]
    · intro x hx
      rw [childrenOf, childrenOf, hread x hx]
  · intro x hx y hy
    rw [hlive] at hx
    rw [childrenOf, hread x hx, ← childrenOf] at hy
    exact above_kill (hs.above_iff.mpr (habove x hx y hy)) a

/-- What unlinking a node and handing over its children achieves. -/
structure Unlinks (c : Comparator K) (bh bh' : BinHeap K V)
    (nodes' : Heap (BinomialTreeNode K V)) (a : Addr) : Prop where
  same : SameItems bh.nodes nodes'
  ordered : Ordered c bh.mode (nodes'.kill a) bh'.trees
  roots : ∀ r ∈ bh.trees, r ≠ a → r ∈ bh'.trees
  head : bh'.head = bh.head
  count : bh'.count = bh.count
  mode : bh'.mode = bh.mode

/-- Who takes over the children of a node that goes away, and what becomes of the
list of roots. -/
inductive HandsOver (bh : BinHeap K V) (trees' : List Addr)
    (nodes' : Heap (BinomialTreeNode K V)) (a : Addr) : Prop where
  | inner (p : Addr) (parent : parentOf bh.nodes a = some p) (trees : trees' = bh.trees)
      (children : childrenOf nodes' p =
        (childrenOf bh.nodes p).erase a ++ childrenOf bh.nodes a)
      (other : ∀ x, x ≠ p → childrenOf nodes' x = childrenOf bh.nodes x)
  | leafRoot (root : a ∈ bh.trees) (leaf : childrenOf bh.nodes a = [])
      (trees : trees' = bh.trees.erase a)
      (other : ∀ x, childrenOf nodes' x = childrenOf bh.nodes x)
  | innerRoot (d : Addr) (root : a ∈ bh.trees) (child : d ∈ childrenOf bh.nodes a)
      (trees : trees' = (bh.trees.erase a).insertIdx (bh.trees.idxOf a) d)
      (children : childrenOf nodes' d =
        childrenOf bh.nodes d ++ (childrenOf bh.nodes a).erase d)
      (other : ∀ x, x ≠ d → childrenOf nodes' x = childrenOf bh.nodes x)

/-- A node is unlinked, and its children are handed over. -/
abbrev CutsOff (c : Comparator K) (bh : BinHeap K V) (a : Addr) (n : BinomialTreeNode K V)
    (i : ℕ) : Prop :=
  ∃ bh₁ newParent children nodes', unlinkNode c.cmp bh a n i =
      some (bh₁, newParent, children) ∧
    handOver bh₁.nodes newParent children = some nodes' ∧
    Unlinks c bh { bh₁ with nodes := nodes' } nodes' a ∧ HandsOver bh bh₁.trees nodes' a

theorem unlink_inner (h : Ordered c bh.mode bh.nodes bh.trees) (hn : bh.nodes a = some n)
    (hp : n.parent = some p) (i : ℕ) : CutsOff c bh a n i := by
  have ha := Heap.mem_live_of_eq_some hn
  have hpar : parentOf bh.nodes a = some p := by rw [parentOf_eq hn, hp]
  have hplive := h.forest.parent a ha p hpar
  obtain ⟨q, hq⟩ := Heap.exists_of_mem_live hplive
  have hak : a ∈ childrenOf bh.nodes p := (h.forest.kid p hplive a).mpr ⟨ha, hpar⟩
  have hpkids : p ∉ n.children := by
    intro hmem
    obtain ⟨rank, hrank⟩ := h.forest.ranked
    have hpa : parentOf bh.nodes p = some a := by
      refine h.forest.par_of_kid ha ?_
      rwa [childrenOf_eq hn]
    exact Nat.lt_asymm (hrank a ha p hpar) (hrank p hplive a hpa)
  let nodes₁ := bh.nodes.put p { q with children := q.children.erase a }
  have hs₁ : SameItems bh.nodes nodes₁ := sameItems_put_children hq _
  obtain ⟨nodes', hadd, had⟩ := addChildren_adopts n.children nodes₁
    (by rwa [hs₁.live_eq]) (fun x hx => by rw [hs₁.live_eq]; exact h.children_live hn x hx)
    hpkids
  have hkidsp : childrenOf nodes' p = (childrenOf bh.nodes p).erase a ++ n.children := by
    rw [had.children, childrenOf_put_children_self hq, childrenOf_eq hq]
  have hkids : ∀ x, x ≠ p → childrenOf nodes' x = childrenOf bh.nodes x := by
    intro x hx
    rw [had.childrenOther x hx, childrenOf_put_of_ne _ hx]
  refine ⟨{ bh with nodes := nodes₁ }, some p, n.children, nodes', ?_, hadd,
    ⟨hs₁.trans had.same, ?_, fun r hr _ => hr, rfl, rfl, rfl⟩,
    .inner p hpar rfl (by rw [hkidsp, childrenOf_eq hn]) hkids⟩
  · rw [unlinkNode, hp]
    simp only [leaveParent, Heap.modify_eq_some _ hq]
    rfl
  refine ordered_kill (hs₁.trans had.same) ?_ ?_
  · refine h.forest.removeInner ha hpar ?_ ?_ ?_ fun x _ hx => hkids x hx
    · intro x hx
      rw [childrenOf_eq hn] at hx
      exact had.adopted x hx
    · intro x _ hx
      rw [childrenOf_eq hn] at hx
      rw [had.parentOther x hx, parentOf_put_children hq]
    · rw [hkidsp, childrenOf_eq hn]
  · intro x hx y hy
    have hxlive := Finset.mem_of_mem_erase hx
    by_cases hxp : x = p
    · subst hxp
      rw [hkidsp, List.mem_append] at hy
      rcases hy with hy | hy
      · exact h.above x hxlive y (List.mem_of_mem_erase hy)
      · rw [← childrenOf_eq hn] at hy
        exact above_trans c ha (h.above x hxlive a hak) (h.above a ha y hy)
    · rw [hkids x hxp] at hy
      exact h.above x hxlive y hy

theorem unlink_leafRoot (h : Ordered c bh.mode bh.nodes bh.trees) (hn : bh.nodes a = some n)
    (hp : n.parent = none) (hnil : n.children = []) {i : ℕ}
    (hi : i ≠ 0 → bh.trees[i]? = some a) : CutsOff c bh a n i := by
  have ha := Heap.mem_live_of_eq_some hn
  have haroot : a ∈ bh.trees := (h.forest.root a).mpr ⟨ha, by rw [parentOf_eq hn, hp]⟩
  have hremove := removeTree_eq h.forest.rootsNodup haroot hi
  have hleaf : childrenOf bh.nodes a = [] := by rw [childrenOf_eq hn, hnil]
  refine ⟨{ bh with trees := bh.trees.erase a }, none, [], bh.nodes, ?_, rfl,
    ⟨Heap.SameThrough.refl _, ?_, ?_, rfl, rfl, rfl⟩,
    .leafRoot haroot hleaf rfl fun _ => rfl⟩
  · rw [unlinkNode, hp]
    simp [replaceRoot, hremove, findChildOf_nil c.cmp bh.mode hnil, hnil]
  · refine ordered_kill (Heap.SameThrough.refl _) ?_ ?_
    · exact h.forest.removeLeafRoot haroot hleaf
        (fun _ _ => rfl) (fun _ _ => rfl) (List.Perm.refl _)
    · intro x hx y hy
      exact h.above x (Finset.mem_of_mem_erase hx) y hy
  · intro r hr hne
    exact (List.mem_erase_of_ne hne).mpr hr

theorem unlink_innerRoot (h : Ordered c bh.mode bh.nodes bh.trees) (hn : bh.nodes a = some n)
    (hp : n.parent = none) (hne : n.children ≠ []) {i : ℕ}
    (hi : i ≠ 0 → bh.trees[i]? = some a) : CutsOff c bh a n i := by
  have ha := Heap.mem_live_of_eq_some hn
  have haroot : a ∈ bh.trees := (h.forest.root a).mpr ⟨ha, by rw [parentOf_eq hn, hp]⟩
  have hremove := removeTree_eq h.forest.rootsNodup haroot hi
  obtain ⟨j, d, hj, hjd, hdom⟩ :=
    findChildOf_dominates c bh.mode (h.children_live hn) hne
  obtain ⟨hjlt, hjget⟩ := List.getElem?_eq_some_iff.mp hjd
  have hdmem : d ∈ n.children := List.mem_of_getElem? hjd
  have hdkid : d ∈ childrenOf bh.nodes a := by rwa [childrenOf_eq hn]
  have hdlive := h.children_live hn d hdmem
  obtain ⟨q, hq⟩ := Heap.exists_of_mem_live hdlive
  have hsplit : n.children.Perm (d :: n.children.eraseIdx j) := by
    have hperm := List.getElem_cons_eraseIdx_perm hjlt
    rw [hjget] at hperm
    exact hperm.symm
  have hnodup : n.children.Nodup := by
    rw [← childrenOf_eq hn]
    exact h.forest.kidsNodup a ha
  have herase : n.children.eraseIdx j = n.children.erase d := by
    have hidx : n.children.idxOf d = j := by
      rw [← hjget]
      exact hnodup.idxOf_getElem j hjlt
    rw [← hidx, List.eraseIdx_idxOf_eq_erase]
  have hdnot : d ∉ n.children.eraseIdx j :=
    (List.nodup_cons.mp (hsplit.nodup_iff.mp hnodup)).1
  have hsib : ∀ x ∈ n.children.eraseIdx j, x ∈ n.children := fun x hx =>
    hsplit.mem_iff.mpr (List.mem_cons_of_mem d hx)
  let nodes₁ := bh.nodes.put d { q with parent := none }
  have hs₁ : SameItems bh.nodes nodes₁ := sameItems_put_parent hq _
  obtain ⟨nodes', hadd, had⟩ := addChildren_adopts (n.children.eraseIdx j) nodes₁
    (by rwa [hs₁.live_eq])
    (fun x hx => by rw [hs₁.live_eq]; exact h.children_live hn x (hsib x hx)) hdnot
  have hkidsd : childrenOf nodes' d = childrenOf bh.nodes d ++ n.children.eraseIdx j := by
    rw [had.children, childrenOf_put_parent hq]
  have hkids : ∀ x, x ≠ d → childrenOf nodes' x = childrenOf bh.nodes x := by
    intro x hx
    rw [had.childrenOther x hx, childrenOf_put_parent hq]
  -- The promoted child takes the place of the root in the list of trees.
  have hidx : bh.trees.idxOf a ≤ (bh.trees.erase a).length := by
    have hlt := List.idxOf_lt_length_iff.mpr haroot
    rw [List.length_erase_of_mem haroot]
    omega
  have htrees : ((bh.trees.erase a).insertIdx (bh.trees.idxOf a) d).Perm
      (d :: bh.trees.erase a) := List.perm_insertIdx _ _ hidx
  refine ⟨{ bh with
      nodes := nodes₁
      trees := (bh.trees.erase a).insertIdx (bh.trees.idxOf a) d },
    some d, n.children.eraseIdx j, nodes', ?_, hadd,
    ⟨hs₁.trans had.same, ?_, ?_, rfl, rfl, rfl⟩,
    .innerRoot d haroot hdkid rfl (by rw [hkidsd, herase, childrenOf_eq hn]) hkids⟩
  · rw [unlinkNode, hp]
    simp only [replaceRoot, hremove, hj, hjd, Option.bind_eq_bind, Option.bind_some,
      Heap.modify_eq_some _ hq, Nat.add_sub_cancel, if_pos hidx, Nat.succ_ne_zero, if_false]
    rfl
  · refine ordered_kill (hs₁.trans had.same) ?_ ?_
    · refine h.forest.removeRoot haroot hdkid (by rwa [childrenOf_eq hn]) ?_ had.adopted ?_
        hkidsd (fun x _ hx => hkids x hx) htrees
      · rw [had.parentOther d hdnot]
        exact parentOf_put_self hq none
      · intro x _ hx
        rw [childrenOf_eq hn] at hx
        have hxd : x ≠ d := by
          rintro rfl
          exact hx hdmem
        rw [had.parentOther x (fun hmem => hx (hsib x hmem)), parentOf_put_of_ne _ hxd]
    · intro x hx y hy
      have hxlive := Finset.mem_of_mem_erase hx
      by_cases hxd : x = d
      · subst hxd
        rw [hkidsd, List.mem_append] at hy
        rcases hy with hy | hy
        · exact h.above x hxlive y hy
        · exact hdom y (hsib y hy)
      · rw [hkids x hxd] at hy
        exact h.above x hxlive y hy
  · intro r hr hra
    exact htrees.mem_iff.mpr (List.mem_cons_of_mem d ((List.mem_erase_of_ne hra).mpr hr))

theorem unlink_spec (h : Ordered c bh.mode bh.nodes bh.trees) (hn : bh.nodes a = some n)
    {i : ℕ} (hi : a ∈ bh.trees → i ≠ 0 → bh.trees[i]? = some a) : CutsOff c bh a n i := by
  cases hp : n.parent with
  | some p => exact unlink_inner h hn hp i
  | none =>
      have hi' := hi ((h.forest.root a).mpr
        ⟨Heap.mem_live_of_eq_some hn, by rw [parentOf_eq hn, hp]⟩)
      by_cases hnil : n.children = []
      · exact unlink_leafRoot h hn hp hnil hi'
      · exact unlink_innerRoot h hn hp hnil hi'

/-- The head after the removal of a node: refreshed if it was that node. -/
theorem refreshHead_spec (h : Consistent c bh) {bh₁ : BinHeap K V} (ha : a ∈ bh.nodes.live)
    (hu : Unlinks c bh bh₁ bh₁.nodes a) :
    ∃ hd, refreshHead c.cmp bh₁ a = some { bh₁ with head := hd } ∧
      (hd = none → bh₁.trees = []) ∧
      ∀ r, hd = some r → r ∈ bh₁.trees ∧
        ∀ s ∈ bh₁.trees, Above c.cmp bh₁.mode bh₁.nodes r s := by
  have hlive : ∀ x ∈ bh₁.trees, x ∈ bh₁.nodes.live.erase a := by
    intro x hx
    rw [← Heap.live_kill]
    exact hu.ordered.trees_live x hx
  by_cases hhead : bh₁.head = some a
  · obtain ⟨hd, hupd, hspec⟩ := updateHead_reads c bh₁
      fun x hx => Finset.mem_of_mem_erase (hlive x hx)
    exact ⟨hd, by rw [refreshHead, if_pos hhead, hupd], hspec⟩
  · refine ⟨bh₁.head, by rw [refreshHead, if_neg hhead], ?_, ?_⟩
    · intro hnone
      rw [hu.head] at hnone
      rw [h.headNone hnone] at ha
      exact absurd ha (Finset.notMem_empty a)
    · intro r hr
      have hra : r ≠ a := by
        rintro rfl
        exact hhead hr
      rw [hu.head] at hr
      obtain ⟨hroot, habove⟩ := h.headTop r hr
      refine ⟨hu.roots r hroot hra, ?_⟩
      intro s hs
      rw [hu.mode]
      refine hu.same.above_iff.mpr (habove s ?_)
      have hslive := Finset.mem_of_mem_erase (hlive s hs)
      rwa [hu.same.live_eq] at hslive

/-- `binomial_tree_node_destroy` removes exactly the item of the node, and hands over
its children. -/
theorem binomialTreeNodeDestroy_handsOver (h : Consistent c bh) (hn : bh.nodes a = some n)
    {i : ℕ} (hi : a ∈ bh.trees → i ≠ 0 → bh.trees[i]? = some a) :
    ∃ bh' nodes', binomialTreeNodeDestroy c.cmp bh a i = some bh' ∧ Consistent c bh' ∧
      bh'.mode = bh.mode ∧ contents bh = item n ::ₘ contents bh' ∧
      bh'.nodes = nodes'.kill a ∧ SameItems bh.nodes nodes' ∧
      HandsOver bh bh'.trees nodes' a := by
  obtain ⟨bh₁, newParent, children, nodes', hunlink, hhand, hu, hover⟩ :=
    unlink_spec h.ordered hn hi
  have ha := Heap.mem_live_of_eq_some hn
  obtain ⟨hd, hrefresh, hnone, htop⟩ := refreshHead_spec h ha hu
  obtain ⟨m, hm, hitem⟩ := hu.same.exists_eq_some hn
  have hord : Ordered c bh₁.mode (nodes'.kill a) bh₁.trees := by
    have hord := hu.ordered
    have hmode : bh₁.mode = bh.mode := hu.mode
    rwa [← hmode] at hord
  refine ⟨{ bh₁ with nodes := nodes'.kill a, head := hd, count := bh₁.count - 1 }, nodes',
    ?_, ⟨hord, ?_, ?_, ?_⟩, hu.mode, ?_, rfl, hu.same, hover⟩
  · simp only [binomialTreeNodeDestroy, hn, hunlink, hhand, hrefresh, Option.bind_eq_bind,
      Option.bind_some, Heap.free_eq_some hm]
  · have hcount : bh₁.count = bh.count := hu.count
    have hpos : 0 < bh.nodes.live.card := Finset.card_pos.mpr ⟨a, ha⟩
    show bh₁.count - 1 = ((nodes'.kill a).live.card : ℤ)
    rw [Heap.live_kill, hu.same.live_eq, Finset.card_erase_of_mem ha, hcount, h.count]
    omega
  · intro hd'
    have hord' := hord
    rw [hnone hd'] at hord'
    exact hord'.live_eq_empty
  · intro r hr
    refine ⟨(htop r hr).1, hord.above_all ?_⟩
    intro s hs
    exact above_kill ((htop r hr).2 s hs) a
  · show bh.nodes.bag item = item n ::ₘ (nodes'.kill a).bag item
    rw [← hu.same.bag_eq, Heap.bag_kill hm, hitem]

theorem binomialTreeNodeDestroy_spec (h : Consistent c bh) (hn : bh.nodes a = some n)
    {i : ℕ} (hi : a ∈ bh.trees → i ≠ 0 → bh.trees[i]? = some a) :
    ∃ bh', binomialTreeNodeDestroy c.cmp bh a i = some bh' ∧ Consistent c bh' ∧
      bh'.mode = bh.mode ∧ contents bh = item n ::ₘ contents bh' := by
  obtain ⟨bh', nodes', hrun, h', hmode, hbag, -, -, -⟩ :=
    binomialTreeNodeDestroy_handsOver h hn hi
  exact ⟨bh', hrun, h', hmode, hbag⟩

end BinHeap
end LibHL
