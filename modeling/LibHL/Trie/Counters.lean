import LibHL.Support.LiveCells
import LibHL.Trie.Removal

/-!
# The counters of a trie

Every node that a destruction frees is taken off the node count, on each of its
three legs, and every node that an insert allocates is added to it.  A node without
children that is not the root holds a value: an insert ends with a value, and a
branch is cut off below a node that has a value or another child.
-/

namespace LibHL
namespace Trie

variable {V : Type}

/-! ## Nodes that disappear -/

/-- No node is new, and the node count falls by the number of nodes that are gone. -/
structure NodesLeave (trie trie' : Trie V) : Prop where
  subset : trie'.nodes.live ⊆ trie.nodes.live
  nodeCount : trie.nodeCount - trie'.nodeCount = (trie.nodes.live \ trie'.nodes.live).card

theorem NodesLeave.refl (trie : Trie V) : NodesLeave trie trie where
  subset := Finset.Subset.refl _
  nodeCount := by
    rw [Int.sub_self, Finset.sdiff_self, Finset.card_empty]
    rfl

theorem NodesLeave.trans {trie trie' trie'' : Trie V} (h : NodesLeave trie trie')
    (h' : NodesLeave trie' trie'') : NodesLeave trie trie'' where
  subset := h'.subset.trans h.subset
  nodeCount := by
    have hcount := h.nodeCount
    have hcount' := h'.nodeCount
    have hcard := Finset.card_sdiff_add_card_eq_card h.subset
    have hcard' := Finset.card_sdiff_add_card_eq_card h'.subset
    have hcard'' := Finset.card_sdiff_add_card_eq_card (h'.subset.trans h.subset)
    omega

section Destroy

variable {trie trie' : Trie V} {a : Addr} {n : TrieNode V} {cb : Bool}

theorem nodesLeave_relink {nodes : Heap (TrieNode V)} {f : TrieNode V → TrieNode V}
    (hrun : trie.nodes.modify a f = some nodes) : NodesLeave trie { trie with nodes := nodes } := by
  obtain ⟨n, -, rfl⟩ := Option.map_eq_some_iff.mp hrun
  have hlive : (trie.nodes.put a (f n)).live = trie.nodes.live := Heap.live_put _ _ _
  refine ⟨hlive.subset, ?_⟩
  dsimp only
  rw [hlive, Int.sub_self, Finset.sdiff_self, Finset.card_empty]
  rfl

theorem clearChild_leaves {parent : Option Addr} {pidx : UInt8}
    (hrun : clearChild trie parent pidx = some trie') : NodesLeave trie trie' := by
  cases parent with
  | none =>
      cases hrun
      exact NodesLeave.refl trie
  | some p =>
      obtain ⟨i, -, hrun⟩ := Option.bind_eq_some_iff.mp hrun
      obtain ⟨nodes, hnodes, heq⟩ := Option.bind_eq_some_iff.mp hrun
      cases heq
      exact nodesLeave_relink hnodes

theorem nodesLeave_kill (hn : trie.nodes a = some n) (hnodes : trie'.nodes = trie.nodes.kill a)
    (hcount : trie'.nodeCount = trie.nodeCount - 1) : NodesLeave trie trie' := by
  have hlive : trie'.nodes.live = trie.nodes.live.erase a := by rw [hnodes, Heap.live_kill]
  have hmem : a ∈ trie.nodes.live := Heap.mem_live_of_eq_some hn
  have hsub : trie'.nodes.live ⊆ trie.nodes.live := by
    rw [hlive]
    exact Finset.erase_subset a _
  refine ⟨hsub, ?_⟩
  have hcard := Finset.card_sdiff_add_card_eq_card hsub
  have hrest := Finset.card_erase_add_one hmem
  rw [← hlive] at hrest
  omega

theorem freeEmptyParents_leaves : ∀ {fuel : ℕ} {trie trie' : Trie V}
    {parent parent' : Option Addr} {pidx pidx' : UInt8},
    freeEmptyParents fuel trie parent pidx = some (trie', parent', pidx') →
      NodesLeave trie trie' := by
  intro fuel
  induction fuel with
  | zero =>
      intro trie trie' parent parent' pidx pidx' hrun
      cases parent with
      | none =>
          cases hrun
          exact NodesLeave.refl trie
      | some p => cases hrun
  | succ fuel ih =>
      intro trie trie' parent parent' pidx pidx' hrun
      cases parent with
      | none =>
          cases hrun
          exact NodesLeave.refl trie
      | some p =>
          rw [freeEmptyParents] at hrun
          by_cases hroot : p = trie.root
          · rw [if_pos hroot] at hrun
            cases hrun
            exact NodesLeave.refl trie
          · rw [if_neg hroot] at hrun
            obtain ⟨n, hn, hrun⟩ := Option.bind_eq_some_iff.mp hrun
            by_cases hkeep : n.value.isSome ∨ 1 < n.numChildren
            · rw [if_pos hkeep] at hrun
              cases hrun
              exact NodesLeave.refl trie
            · rw [if_neg hkeep] at hrun
              obtain ⟨nodes, hfree, hrun⟩ := Option.bind_eq_some_iff.mp hrun
              rw [Heap.free_eq_some hn] at hfree
              cases hfree
              exact (nodesLeave_kill hn rfl rfl).trans (ih hrun)

theorem freeNode_leaves (hrun : freeNode trie a cb = some trie') : NodesLeave trie trie' := by
  obtain ⟨n, hn, hrun⟩ := Option.bind_eq_some_iff.mp hrun
  obtain ⟨nodes, hfree, heq⟩ := Option.bind_eq_some_iff.mp hrun
  rw [releaseValue_nodes, Heap.free_eq_some hn] at hfree
  cases hfree
  cases heq
  refine nodesLeave_kill hn rfl ?_
  dsimp only
  rw [releaseValue_nodeCount]

theorem destroyChildren_leaves {destroy : Trie V → Addr → Option (Trie V)}
    (hdestroy : ∀ trie a trie', destroy trie a = some trie' → NodesLeave trie trie') (a : Addr) :
    ∀ (is : List UInt8) {trie trie' : Trie V},
      destroyChildren destroy a trie is = some trie' → NodesLeave trie trie' := by
  intro is
  induction is with
  | nil =>
      intro trie trie' hrun
      cases hrun
      exact NodesLeave.refl trie
  | cons i is ih =>
      intro trie trie' hrun
      rw [destroyChildren] at hrun
      obtain ⟨n, -, hrun⟩ := Option.bind_eq_some_iff.mp hrun
      cases hc : n.child i with
      | none =>
          simp only [hc] at hrun
          exact ih hrun
      | some c =>
          simp only [hc] at hrun
          obtain ⟨nodes, hnodes, hrun⟩ := Option.bind_eq_some_iff.mp hrun
          obtain ⟨trie₁, hrun₁, hrun⟩ := Option.bind_eq_some_iff.mp hrun
          obtain ⟨trie₂, hrun₂, hrun⟩ := Option.bind_eq_some_iff.mp hrun
          have hlinks := nodesLeave_relink hnodes
          have hbranch := hlinks.trans (hdestroy _ _ _ hrun₁)
          exact (hbranch.trans (clearChild_leaves hrun₂)).trans (ih hrun)

theorem trieNodeDestroy_leaves : ∀ {fuel : ℕ} {trie : Trie V} {a : Addr} {trie' : Trie V},
    trieNodeDestroy cb fuel trie a = some trie' → NodesLeave trie trie' := by
  intro fuel
  induction fuel with
  | zero =>
      intro trie a trie' hrun
      cases hrun
  | succ fuel ih =>
      intro trie a trie' hrun
      rw [trieNodeDestroy] at hrun
      obtain ⟨n, -, hrun⟩ := Option.bind_eq_some_iff.mp hrun
      obtain ⟨⟨trie₁, parent, pidx⟩, hparents, hrun⟩ := Option.bind_eq_some_iff.mp hrun
      obtain ⟨trie₂, hclear, hrun⟩ := Option.bind_eq_some_iff.mp hrun
      obtain ⟨trie₃, hchildren, hrun⟩ := Option.bind_eq_some_iff.mp hrun
      have habove := (freeEmptyParents_leaves hparents).trans (clearChild_leaves hclear)
      have hbelow := destroyChildren_leaves (fun _ _ _ => ih) a childIndices hchildren
      exact (habove.trans hbelow).trans (freeNode_leaves hrun)

theorem trieRemove_leaves {key : List UInt8} {wantsValue : Bool} {r : Removed V}
    (hrun : trieRemove trie key wantsValue = some (trie', r)) : NodesLeave trie trie' := by
  obtain ⟨found, -, hrun⟩ := Option.bind_eq_some_iff.mp hrun
  cases found with
  | none =>
      cases hrun
      exact NodesLeave.refl trie
  | some node =>
      obtain ⟨n, -, hrun⟩ := Option.bind_eq_some_iff.mp hrun
      obtain ⟨trie₁, hdestroy, heq⟩ := Option.bind_eq_some_iff.mp hrun
      cases heq
      exact trieNodeDestroy_leaves hdestroy

end Destroy

/-! ## Branches end in values -/

/-- Every node but the root has a parent. -/
def Rooted (nodes : Heap (TrieNode V)) (root : Addr) : Prop :=
  ∀ b m, nodes b = some m → m.parent = none → b = root

/-- Every node without children holds a value, apart from the root and one more node. -/
def EndsInValues (nodes : Heap (TrieNode V)) (root a : Addr) : Prop :=
  ∀ b m, nodes b = some m → b ≠ root → b ≠ a → childSet m = ∅ → m.value.isSome

theorem childSet_ne_empty {m : TrieNode V} {d : UInt8} (h : (m.child d).isSome) :
    childSet m ≠ ∅ :=
  Finset.ne_empty_of_mem (mem_childSet.mpr h)

section Insert

variable {nodes nodes' : Heap (TrieNode V)} {root a b : Addr} {n : TrieNode V} {c : UInt8}

theorem Rooted.addChild (h : Rooted nodes root) (hn : nodes a = some n) :
    Rooted (Trie.addChild nodes a n c) root := by
  intro x m hm hpar
  rcases addChild_cases hn hm with ⟨rfl, rfl⟩ | ⟨rfl, rfl⟩ | ⟨-, -, hm⟩
  · exact h x n hn hpar
  · cases hpar
  · exact h x m hm hpar

theorem EndsInValues.addChild (h : EndsInValues nodes root a) (hn : nodes a = some n) :
    EndsInValues (Trie.addChild nodes a n c) root nodes.brk := by
  intro x m hm hroot hx hempty
  rcases addChild_cases hn hm with ⟨rfl, rfl⟩ | ⟨rfl, rfl⟩ | ⟨hxa, -, hm⟩
  · refine absurd hempty (childSet_ne_empty (d := c) ?_)
    show ((n.setChild c (some nodes.brk)).child c).isSome
    rw [setChild_child_self]
    rfl
  · exact absurd rfl hx
  · exact h x m hm hroot hxa hempty

theorem card_live_addChild :
    (Trie.addChild nodes a n c).live.card = nodes.live.card + 1 := by
  rw [Trie.addChild, Heap.live_put, Heap.live_alloc,
    Finset.card_insert_of_notMem (Heap.brk_notMem_live nodes)]

/-- The second loop of `trie_insert` adds as many nodes as it counts. -/
theorem extendKey_grows : ∀ (rest : List UInt8) {nodes nodes' : Heap (TrieNode V)} {a b : Addr}
    {n : TrieNode V} {k k' : ℕ}, extendKey nodes a rest k = some (nodes', b, k') →
    nodes a = some n → Rooted nodes root → EndsInValues nodes root a →
    Rooted nodes' root ∧ EndsInValues nodes' root b ∧
      nodes'.live.card + k = nodes.live.card + k' := by
  intro rest
  induction rest with
  | nil =>
      intro nodes nodes' a b n k k' hrun hn hrooted hends
      cases hrun
      exact ⟨hrooted, hends, rfl⟩
  | cons c rest ih =>
      intro nodes nodes' a b n k k' hrun hn hrooted hends
      obtain ⟨i, hi, hrun⟩ := Option.bind_eq_some_iff.mp hrun
      have hic : i = c := by
        rw [childIndex] at hi
        by_cases hlow : c < 128
        · rw [if_pos hlow] at hi
          exact (Option.some.inj hi).symm
        · rw [if_neg hlow] at hi
          cases hi
      subst hic
      have halloc : (nodes.alloc { newNode with parent := some a, pidx := i }).1 a = some n := by
        rw [Heap.alloc_apply, if_neg (Heap.lt_brk_of_eq_some hn).ne, hn]
      simp only [Heap.modify_eq_some _ halloc, Option.bind_eq_bind, Option.bind_some] at hrun
      have hgrown : extendKey (Trie.addChild nodes a n i) nodes.brk rest (k + 1) =
          some (nodes', b, k') := hrun
      obtain ⟨hrooted', hends', hcard⟩ :=
        ih hgrown (addChild_new hn) (hrooted.addChild hn) (hends.addChild hn)
      refine ⟨hrooted', hends', ?_⟩
      rw [card_live_addChild] at hcard
      omega

end Insert

theorem trieNodeSetValue_nodeCount {trie trie' : Trie V} {node : Addr} {value : Option V}
    {vsize : ℕ} {copy : Bool} (hrun : trieNodeSetValue trie node value vsize copy = some trie') :
    trie'.nodeCount = trie.nodeCount := by
  obtain ⟨n, -, hrun⟩ := Option.bind_eq_some_iff.mp hrun
  cases copy with
  | true =>
      obtain ⟨v, -, hrun⟩ := Option.bind_eq_some_iff.mp hrun
      obtain ⟨nodes, -, heq⟩ := Option.bind_eq_some_iff.mp hrun
      cases heq
      exact releaseValue_nodeCount trie n _
  | false =>
      obtain ⟨nodes, -, heq⟩ := Option.bind_eq_some_iff.mp hrun
      cases heq
      exact releaseValue_nodeCount trie n _

/-! ## Runs -/

/-- What holds of a trie between two calls. -/
structure Tidy (trie : Trie V) : Prop where
  shape : Shape trie.nodes trie.root
  rooted : Rooted trie.nodes trie.root
  ends : EndsInValues trie.nodes trie.root trie.root
  nodeCount : trie.nodeCount + 1 = trie.nodes.live.card

theorem tidy_trieCreate (freeValueCb : Bool) : Tidy (trieCreate freeValueCb : Trie V) where
  shape := shape_trieCreate freeValueCb
  rooted := by
    intro b m hm _
    by_contra hne
    have hcell : (trieCreate freeValueCb : Trie V).nodes b = none := if_neg hne
    rw [hcell] at hm
    cases hm
  ends := by
    intro b m hm hne
    have hcell : (trieCreate freeValueCb : Trie V).nodes b = none := if_neg hne
    rw [hcell] at hm
    cases hm
  nodeCount := by
    have hlive : (trieCreate freeValueCb : Trie V).nodes.live = insert 0 ∅ := Heap.live_alloc _ _
    rw [hlive]
    rfl

namespace Tidy

variable {trie : Trie V} {key : List UInt8}

theorem trieInsert (h : Tidy trie) (hkey : Plain key) (value : V) (vsize : ℕ) (copy : Bool) :
    ∃ trie' k, trieInsert trie key (some value) vsize copy = some (trie', k) ∧ Tidy trie' := by
  obtain ⟨trie', q, rest, ptr, hins, -, -, -, -, hshape, -, -⟩ :=
    h.shape.trieInsert_spec hkey (some value) copy (fun _ => rfl) vsize
  refine ⟨trie', rest.length, hins, ?_⟩
  obtain ⟨⟨a, left⟩, hfollow, hrun⟩ := Option.bind_eq_some_iff.mp hins
  obtain ⟨⟨nodes, b, k⟩, hextend, hrun⟩ := Option.bind_eq_some_iff.mp hrun
  obtain ⟨trie'', hset, heq⟩ := Option.bind_eq_some_iff.mp hrun
  cases heq
  obtain ⟨q', left', a', hfollow', -, ha', -, -⟩ :=
    h.shape.followKey_eq hkey (p := []) (walk_nil _ _)
  rw [hfollow] at hfollow'
  cases hfollow'
  obtain ⟨m, hm⟩ := h.shape.exists_of_walk ha'
  have hopen : EndsInValues trie.nodes trie.root a := fun b m hb hroot _ => h.ends b m hb hroot hroot
  obtain ⟨hrooted, hends, hcard⟩ := extendKey_grows left hextend hm h.rooted hopen
  obtain ⟨n, hn, -⟩ := Option.bind_eq_some_iff.mp hset
  obtain ⟨trie₁, ptr', hset', hptr, hroot, hnodes⟩ :=
    @trieNodeSetValue_eq _ _ _ _ hn (some value) copy (fun _ => rfl) vsize
  rw [hset] at hset'
  cases hset'
  have hvalue : ptr'.isSome := by
    rw [← Option.isSome_map (f := ValuePtr.contents), hptr]
    rfl
  -- The node that got the value was the only one that could end a branch without one.
  have hcells : ∀ x y, trie'.nodes x = some y → ∃ z, nodes x = some z ∧ y.parent = z.parent ∧
      childSet y = childSet z ∧ (x ≠ b → y = z) ∧ (x = b → y.value.isSome) := by
    intro x y hy
    rw [hnodes] at hy
    by_cases hx : x = b
    · subst hx
      rw [Heap.put_self hn] at hy
      cases hy
      exact ⟨n, hn, rfl, childSet_congr rfl, fun hne => absurd rfl hne, fun _ => hvalue⟩
    · rw [Heap.put_of_ne hx] at hy
      exact ⟨y, hy, rfl, rfl, fun _ => rfl, fun heq => absurd heq hx⟩
  refine ⟨hshape, ?_, ?_, ?_⟩
  · intro x y hy hpar
    obtain ⟨z, hz, hparent, -⟩ := hcells x y hy
    rw [hroot]
    exact hrooted x z hz (hparent.symm.trans hpar)
  · intro x y hy hne _ hempty
    obtain ⟨z, hz, -, hchild, hother, hself⟩ := hcells x y hy
    by_cases hx : x = b
    · exact hself hx
    · rw [hother hx]
      refine hends x z hz ?_ hx (hchild.symm.trans hempty)
      rwa [hroot] at hne
  · have hcount := trieNodeSetValue_nodeCount hset
    have hlive : trie'.nodes.live = nodes.live := by
      rw [hnodes]
      exact Heap.live_put _ _ _
    have hbefore := h.nodeCount
    rw [hlive, hcount]
    dsimp only
    omega

/-- A removal takes off the node count as many nodes as are gone, and returns their
number. -/
theorem trieRemove (h : Tidy trie) (hkey : Plain key) (hne : key ≠ []) (wantsValue : Bool) :
    ∃ trie' r, trieRemove trie key wantsValue = some (trie', r) ∧ Tidy trie' ∧
      r.numNodes = (trie.nodes.live \ trie'.nodes.live).card := by
  have hfind := h.shape.trieFindInternal_eq hkey
  cases hw : walk trie.nodes trie.root key with
  | none =>
      refine ⟨trie, ⟨0, none, none⟩, ?_, h, ?_⟩
      · simp [Trie.trieRemove, hfind, hw]
      · rw [Finset.sdiff_self]
        rfl
  | some node =>
      obtain ⟨n, hn⟩ := h.shape.exists_of_walk hw
      obtain ⟨p, c, rfl⟩ := (List.eq_nil_or_concat' key).resolve_left hne
      obtain ⟨trie', top, t, y, heq, hroot, hcut, hy, hstays, hyt, -⟩ :=
        h.shape.trieNodeDestroy_cuts hw (if wantsValue then false else trie.freeValueCb)
      rw [hw] at hfind
      have hleave := trieNodeDestroy_leaves heq
      refine ⟨trie', _, trieRemove_of_found hfind hn heq, ⟨?_, ?_, ?_, ?_⟩, hleave.nodeCount⟩
      · rw [hroot]
        exact hcut.shape h.shape hy hyt
      · intro x m hm hpar
        obtain ⟨-, z, hz, hparent, -⟩ := hcut.back hm
        rw [hroot]
        exact h.rooted x z hz (hparent.symm.trans hpar)
      · intro x m hm hx _ hempty
        rw [hroot] at hx
        obtain ⟨-, z, hz, -, -, hsame, hcutoff⟩ := hcut.back hm
        by_cases hxy : x = y
        · -- The node above the cut is the root, or has a value, or has another child.
          obtain ⟨k, hk, hkeep⟩ := hstays.resolve_left (hxy ▸ hx)
          rw [hxy, hk] at hz
          obtain rfl := Option.some.inj hz
          rw [hcutoff hxy] at hempty ⊢
          refine hkeep.resolve_right fun hmany => ?_
          have herase : childSet (k.setChild t none) = ∅ := hempty
          rw [childSet_setChild_none] at herase
          have hcard := Finset.pred_card_le_card_erase (a := t) (s := childSet k)
          have hnum := h.shape.numChildren y k hk
          rw [herase, Finset.card_empty] at hcard
          omega
        · rw [hsame hxy] at hempty ⊢
          exact h.ends x z hz hx hx hempty
      · have hcard := Finset.card_sdiff_add_card_eq_card hleave.subset
        have hcount := hleave.nodeCount
        have hbefore := h.nodeCount
        omega

theorem exists_walk (h : Tidy trie) : ∀ (a : Addr) {n : TrieNode V}, trie.nodes a = some n →
    ∃ q, walk trie.nodes trie.root q = some a := by
  intro a
  induction a using Nat.strong_induction_on with
  | h a ih =>
      intro n hn
      cases hpar : n.parent with
      | none =>
          obtain rfl := h.rooted a n hn hpar
          exact ⟨[], rfl⟩
      | some p =>
          obtain ⟨m, hm, hchild⟩ := h.shape.parent a n p hn hpar
          obtain ⟨q, hq⟩ := ih p (h.shape.lower p m _ a hm hchild).2 hm
          refine ⟨q ++ [n.pidx], ?_⟩
          rw [walk_snoc_of_walk hq, childOf_of_eq_some hm, hchild]

end Tidy

/-- The calls of the run: values are not null, and keys are not empty. -/
inductive CountOp (V : Type) where
  | insert (key : Key) (hne : key.val ≠ []) (value : V) (vsize : ℕ) (copy : Bool)
  | remove (key : Key) (hne : key.val ≠ []) (wantsValue : Bool)

/-- One call, with the number that it returns. -/
def countStep (trie : Trie V) : CountOp V → Option (Trie V × ℤ)
  | .insert key _ value vsize copy =>
      (trieInsert trie key.val (some value) vsize copy).map fun r => (r.1, (r.2 : ℤ))
  | .remove key _ wantsValue =>
      (trieRemove trie key.val wantsValue).map fun r => (r.1, r.2.numNodes)

/-- The counters say how many nodes there are, and no branch is dead. -/
structure CountersRight (trie : Trie V) : Prop where
  reached : ∀ a ∈ trie.nodes.live, ∃ q, walk trie.nodes trie.root q = some a
  nodeCount : trie.nodeCount = (trie.nodes.live.erase trie.root).card
  numChildren : ∀ a n, trie.nodes a = some n → n.numChildren = (childSet n).card
  noDeadBranch : ∀ a n, trie.nodes a = some n → a ≠ trie.root → childSet n = ∅ → n.value.isSome

theorem Tidy.countersRight {trie : Trie V} (h : Tidy trie) : CountersRight trie where
  reached := by
    intro a ha
    obtain ⟨n, hn⟩ := Heap.exists_of_mem_live ha
    exact h.exists_walk a hn
  nodeCount := by
    obtain ⟨r, hr, -⟩ := h.shape.root
    have hcard := Finset.card_erase_add_one (Heap.mem_live_of_eq_some hr)
    have hcount := h.nodeCount
    omega
  numChildren := h.shape.numChildren
  noDeadBranch := fun a n hn hne => h.ends a n hn hne hne

theorem countStep_keeps {trie : Trie V} (h : Tidy trie) (op : CountOp V) :
    ∃ trie' o, countStep trie op = some (trie', o) ∧ Tidy trie' := by
  cases op with
  | insert key hne value vsize copy =>
      obtain ⟨trie', k, hins, htidy⟩ := h.trieInsert key.property value vsize copy
      exact ⟨trie', k, by simp [countStep, hins], htidy⟩
  | remove key hne wantsValue =>
      obtain ⟨trie', r, hrem, htidy, -⟩ := h.trieRemove key.property hne wantsValue
      exact ⟨trie', r.numNodes, by simp [countStep, hrem], htidy⟩

/-- Every run of inserts and removals leaves the counters right, and a removal after it
returns the number of nodes that disappear. -/
theorem counters_right_of_run (freeValueCb : Bool) (ops : List (CountOp V)) :
    ∃ trie os, runSteps countStep (trieCreate freeValueCb) ops = some (trie, os) ∧
      CountersRight trie ∧
      ∀ (key : Key), key.val ≠ [] → ∀ wantsValue, ∃ trie' r,
        trieRemove trie key.val wantsValue = some (trie', r) ∧
        trie'.nodes.live ⊆ trie.nodes.live ∧
        r.numNodes = (trie.nodes.live \ trie'.nodes.live).card := by
  have hmeet : StepsMeet countStep (fun _ _ => True) (trieCreate freeValueCb : Trie V) ops :=
    stepsMeet_of_forall (fun _ _ => trivial) ops _
  obtain ⟨trie, os, hrun, h⟩ := runSteps_keeps
    (fun trie op htidy _ => countStep_keeps htidy op) ops _ (tidy_trieCreate freeValueCb) hmeet
  refine ⟨trie, os, hrun, h.countersRight, ?_⟩
  intro key hne wantsValue
  obtain ⟨trie', r, hrem, -, hnum⟩ := h.trieRemove key.property hne wantsValue
  exact ⟨trie', r, hrem, (trieRemove_leaves hrem).subset, hnum⟩

end Trie
end LibHL
