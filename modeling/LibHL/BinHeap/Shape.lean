import LibHL.BinHeap.Refinement
import Mathlib.Data.Nat.BitIndices

/-!
# The binomial shape of the trees

The order of a node is the number of its children.  A heap has the binomial shape
if a node of order `k` has children of the orders below `k`, and if the orders of
the roots ascend.  Its root orders are then the positions of the one bits of its
count.  Insertion keeps the shape.  A deletion hands the children of the deleted
node to another node, which keeps the shape only in the first tree, and only if
that tree has at most two nodes.
-/

namespace LibHL
namespace BinHeap

variable {K V : Type}

/-- `num_children`. -/
def order (nodes : Heap (BinomialTreeNode K V)) (a : Addr) : ℕ := (childrenOf nodes a).length

/-- A node with `k` children has children of the orders from 0 to `k - 1`. -/
def Binomial (nodes : Heap (BinomialTreeNode K V)) : Prop :=
  ∀ a ∈ nodes.live,
    ((childrenOf nodes a).map (order nodes)).Perm (List.range (order nodes a))

/-- All trees are binomial, and their orders ascend. -/
structure BinomialShape (bh : BinHeap K V) : Prop where
  binomial : Binomial bh.nodes
  ascending : (bh.trees.map (order bh.nodes)).Pairwise (· < ·)

/-- The binomial shape with what it says about sizes: a tree of order `k` has `2 ^ k`
nodes, and there is one tree for each one bit of the count. -/
def BinomialForest (bh : BinHeap K V) : Prop :=
  BinomialShape bh ∧
    (∀ a ∈ bh.trees, (subtree bh.nodes bh.nodes.brk a).length = 2 ^ order bh.nodes a) ∧
    bh.trees.length = bh.count.toNat.bitIndices.length

/-- The node that an operation deletes. -/
def deletedNode (cmp : K → K → ℤ) (bh : BinHeap K V) : BinheapOp K V → Option Addr
  | .insert _ _ => none
  | .deleteMaximum => (binheapGetMaximum cmp bh).bind Prod.fst
  | .deleteMinimum => (binheapGetMinimum cmp bh).bind Prod.fst
  | .delete key => do
      let candidates ← bh.trees.mapM (withKey bh.nodes)
      let tree ← closestTo cmp bh.mode key candidates none
      (searchKey cmp bh.mode key bh.nodes bh.nodes.brk tree.1).join

/-- The node is in the first tree, whose root has at most one child. -/
def InSmallFirstTree (bh : BinHeap K V) (a : Addr) : Prop :=
  ∃ r ∈ bh.trees.head?, order bh.nodes r ≤ 1 ∧ (a = r ∨ a ∈ childrenOf bh.nodes r)

/-- The operation deletes nothing but from a small first tree. -/
def DeletesSmall (cmp : K → K → ℤ) (bh : BinHeap K V) (op : BinheapOp K V) : Prop :=
  ∀ a ∈ deletedNode cmp bh op, InSmallFirstTree bh a

instance (bh : BinHeap K V) (a : Addr) : Decidable (InSmallFirstTree bh a) :=
  match h : bh.trees.head? with
  | none => isFalse (by simp [InSmallFirstTree, h])
  | some r =>
      decidable_of_iff (order bh.nodes r ≤ 1 ∧ (a = r ∨ a ∈ childrenOf bh.nodes r))
        (by simp [InSmallFirstTree, h])

instance (cmp : K → K → ℤ) (bh : BinHeap K V) (op : BinheapOp K V) :
    Decidable (DeletesSmall cmp bh op) :=
  match h : deletedNode cmp bh op with
  | none => isTrue (by simp [DeletesSmall, h])
  | some a => decidable_of_iff (InSmallFirstTree bh a) (by simp [DeletesSmall, h])

variable {c : Comparator K} {bh bh' : BinHeap K V} {mode : BinheapMode}
  {nodes nodes' : Heap (BinomialTreeNode K V)} {trees : List Addr} {a p r : Addr}

/-! ## Sizes -/

theorem sum_range_two_pow (k : ℕ) : 1 + ((List.range k).map (2 ^ ·)).sum = 2 ^ k := by
  induction k with
  | zero => rfl
  | succ k ih =>
      rw [List.range_succ, List.map_append, List.sum_append, ← Nat.add_assoc, ih]
      simp [Nat.pow_succ, Nat.mul_two]

theorem Binomial.two_pow_order (hb : Binomial nodes) (ha : a ∈ nodes.live) :
    2 ^ order nodes a = 1 + ((childrenOf nodes a).map fun x => 2 ^ order nodes x).sum := by
  have hperm := ((hb a ha).map (2 ^ ·)).sum_eq
  rw [List.map_map] at hperm
  rw [← sum_range_two_pow, ← hperm]
  rfl

/-- A binomial tree of order `k` has `2 ^ k` nodes. -/
theorem Binomial.length_subtree (hb : Binomial nodes) {rank : Addr → ℕ}
    (hrank : ∀ a ∈ nodes.live, ∀ x ∈ childrenOf nodes a, rank x < rank a)
    (hkid : ∀ a ∈ nodes.live, ∀ x ∈ childrenOf nodes a, x ∈ nodes.live) :
    ∀ (depth : ℕ) (a : Addr), a ∈ nodes.live → rank a < depth →
      (subtree nodes depth a).length = 2 ^ order nodes a := by
  intro depth
  induction depth with
  | zero =>
      intro a _ hlt
      exact absurd hlt (Nat.not_lt_zero _)
  | succ depth ih =>
      intro a ha hlt
      have hchild : ∀ x ∈ childrenOf nodes a,
          (subtree nodes depth x).length = 2 ^ order nodes x := by
        intro x hx
        have hx' := hrank a ha x hx
        exact ih x (hkid a ha x hx) (by omega)
      rw [subtree, List.length_cons, List.length_flatMap, List.map_congr_left hchild,
        hb.two_pow_order ha, Nat.add_comm]

theorem BinomialShape.orders_eq_bitIndices (h : Consistent c bh) (hs : BinomialShape bh) :
    bh.trees.map (order bh.nodes) = bh.count.toNat.bitIndices := by
  have hsum := h.ordered.forest.sum_roots (g := fun _ => 1) fun a ha =>
    hs.binomial.two_pow_order ha
  rw [← Finset.card_eq_sum_ones] at hsum
  have hbits := Nat.bitIndices_sum_map_two_pow hs.ascending.sortedLT
  rw [List.map_map] at hbits
  rw [h.count, Int.toNat_natCast, ← hsum]
  exact hbits.symm

theorem BinomialShape.forest (h : Consistent c bh) (hs : BinomialShape bh) :
    BinomialForest bh := by
  refine ⟨hs, ?_, ?_⟩
  · obtain ⟨rank, hrank, hcard⟩ := h.ordered.forest.exists_rank_lt
    intro a ha
    have halive := h.ordered.trees_live a ha
    apply hs.binomial.length_subtree hrank (fun x hx y hy => h.ordered.forest.mem_of_kid hx hy)
      _ _ halive
    exact Nat.lt_of_lt_of_le (hcard a halive) bh.nodes.card_live_le_brk
  · rw [← hs.orders_eq_bitIndices h, List.length_map]

/-! ## Insertion -/

theorem Adopts.order_other (had : Adopts nodes nodes' p [r]) {x : Addr} (hx : x ≠ p) :
    order nodes' x = order nodes x := by
  rw [order, order, had.childrenOther x hx]

theorem Adopts.order_parent (had : Adopts nodes nodes' p [r]) :
    order nodes' p = order nodes p + 1 := by
  rw [order, order, had.children, List.length_append, List.length_singleton]

/-- A root adopts another one of the same order. -/
theorem Binomial.adopt (hb : Binomial nodes) {par : Addr → Option Addr} {roots : List Addr}
    (hf : Forest nodes.live roots par (childrenOf nodes)) (hp : p ∈ roots) (hne : r ≠ p)
    (had : Adopts nodes nodes' p [r]) (heq : order nodes r = order nodes p) :
    Binomial nodes' := by
  intro a ha
  rw [had.same.live_eq] at ha
  have hkids : (childrenOf nodes a).map (order nodes') =
      (childrenOf nodes a).map (order nodes) := by
    apply List.map_congr_left
    intro x hx
    apply had.order_other
    rintro rfl
    have hpar := hf.par_of_kid ha hx
    rw [hf.par_of_root hp] at hpar
    cases hpar
  by_cases hap : a = p
  · subst hap
    rw [had.order_parent, had.children, List.map_append, hkids, List.range_succ, List.map_singleton,
      had.order_other hne, heq]
    exact (hb a ha).append_right _
  · rw [had.order_other hap, had.childrenOther a hap, hkids]
    exact hb a ha

theorem binomial_alloc (h : Ordered c mode nodes trees) (hb : Binomial nodes) (k : K) (v : V) :
    Binomial (nodes.alloc { key := k, value := v, parent := none, children := [] }).1 ∧
      order (nodes.alloc { key := k, value := v, parent := none, children := [] }).1
        nodes.brk = 0 ∧
      ∀ x ∈ nodes.live,
        order (nodes.alloc { key := k, value := v, parent := none, children := [] }).1 x =
          order nodes x := by
  set cell : BinomialTreeNode K V := { key := k, value := v, parent := none, children := [] }
  have hnew : childrenOf (nodes.alloc cell).1 nodes.brk = [] := by
    have hcell : (nodes.alloc cell).1 nodes.brk = some cell := by simp [Heap.alloc_apply]
    exact childrenOf_eq hcell
  have hold : ∀ x ∈ nodes.live, childrenOf (nodes.alloc cell).1 x = childrenOf nodes x := by
    intro x hx
    have hne : x ≠ nodes.brk := by
      rintro rfl
      exact nodes.brk_notMem_live hx
    rw [childrenOf, childrenOf, Heap.alloc_apply, if_neg hne]
  have horder : ∀ x ∈ nodes.live, order (nodes.alloc cell).1 x = order nodes x := by
    intro x hx
    rw [order, order, hold x hx]
  refine ⟨?_, by rw [order, hnew]; rfl, horder⟩
  intro x hx
  rw [Heap.live_alloc, Finset.mem_insert] at hx
  rcases hx with rfl | hx
  · rw [order, hnew]
    exact List.Perm.refl _
  · rw [horder x hx, hold x hx,
      List.map_congr_left fun y hy => horder y (h.forest.mem_of_kid hx hy)]
    exact hb x hx

/-- What the merging loop keeps: the merged tree has the order reached, and the trees
left have ascending orders from there on. -/
structure MergesUp (order' : ℕ) (nodes : Heap (BinomialTreeNode K V)) (node : Addr)
    (trees : List Addr) : Prop where
  binomial : Binomial nodes
  order_eq : order nodes node = order'
  ascending : (trees.map (order nodes)).Pairwise (· < ·)
  le : ∀ t ∈ trees, order' ≤ order nodes t

theorem MergesUp.link {k : ℕ} {node tree : Addr}
    (h : Ordered c mode nodes (node :: tree :: trees)) (hm : MergesUp k nodes node (tree :: trees))
    (htree : order nodes tree = k) (hpr : (p = node ∧ r = tree) ∨ (p = tree ∧ r = node))
    (had : Adopts nodes nodes' p [r]) : MergesUp (k + 1) nodes' p trees := by
  have hnodup := h.forest.rootsNodup
  have hne : node ≠ tree := by
    rintro rfl
    exact (List.nodup_cons.mp hnodup).1 List.mem_cons_self
  have hnot : ∀ t ∈ trees, t ≠ node ∧ t ≠ tree := by
    intro t ht
    rw [List.nodup_cons, List.nodup_cons] at hnodup
    constructor
    · rintro rfl
      exact hnodup.1 (List.mem_cons_of_mem _ ht)
    · rintro rfl
      exact hnodup.2.1 ht
  have hparts : p ∈ node :: tree :: trees ∧ r ≠ p ∧ order nodes r = k ∧ order nodes p = k ∧
      ∀ t ∈ trees, t ≠ p := by
    rcases hpr with ⟨rfl, rfl⟩ | ⟨rfl, rfl⟩
    · exact ⟨List.mem_cons_self, hne.symm, htree, hm.order_eq, fun t ht => (hnot t ht).1⟩
    · exact ⟨List.mem_cons_of_mem _ List.mem_cons_self, hne, hm.order_eq, htree,
        fun t ht => (hnot t ht).2⟩
  obtain ⟨hp, hrp, hr, hpk, htrees⟩ := hparts
  have horders : trees.map (order nodes') = trees.map (order nodes) :=
    List.map_congr_left fun t ht => had.order_other (htrees t ht)
  have hasc := hm.ascending
  rw [List.map_cons, List.pairwise_cons] at hasc
  refine ⟨hm.binomial.adopt h.forest hp hrp had (hr.trans hpk.symm), ?_, ?_, ?_⟩
  · rw [had.order_parent, hpk]
  · rw [horders]
    exact hasc.2
  · intro t ht
    have hlt := hasc.1 (order nodes t) (List.mem_map.mpr ⟨t, ht, rfl⟩)
    rw [had.order_other (htrees t ht)]
    omega

theorem binheapInsert_shape (h : Consistent c bh) (hs : BinomialShape bh) (k : K) (v : V) :
    ∃ bh', binheapInsert c.cmp bh k v = some (bh', 0) ∧ Consistent c bh' ∧
      BinomialShape bh' := by
  obtain ⟨bh', node', trees', hrun, h', -, -, hmerge, htrees⟩ := binheapInsert_merges h k v
  obtain ⟨hb₀, hnew, hold⟩ := binomial_alloc h.ordered hs.binomial k v
  have horders : bh.trees.map (order (bh.nodes.alloc
      { key := k, value := v, parent := none, children := [] }).1) =
        bh.trees.map (order bh.nodes) :=
    List.map_congr_left fun t ht => hold t (h.ordered.trees_live t ht)
  have hstart : MergesUp 0 _ bh.nodes.brk bh.trees :=
    ⟨hb₀, hnew, by rw [horders]; exact hs.ascending, fun _ _ => Nat.zero_le _⟩
  obtain ⟨nodes'', node'', trees'', k', hmerge', -, -, hup, hhead⟩ :=
    mergeTrees_rule MergesUp (fun hord hm ht hpr _ => MergesUp.link hord hm ht hpr) bh.trees
      bh.nodes.brk 0 _ (ordered_alloc h.ordered k v) hstart
  rw [hmerge] at hmerge'
  cases hmerge'
  refine ⟨bh', hrun, h', hup.binomial, ?_⟩
  rw [htrees, List.map_cons, List.pairwise_cons]
  refine ⟨?_, hup.ascending⟩
  intro j hj
  obtain ⟨t, ht, rfl⟩ := List.mem_map.mp hj
  rw [hup.order_eq]
  -- The first tree left is of another order, and the others are of higher orders.
  cases trees' with
  | nil => cases ht
  | cons t₀ rest =>
      have hasc := hup.ascending
      rw [List.map_cons, List.pairwise_cons] at hasc
      have hne : order bh'.nodes t₀ ≠ k' := hhead t₀ rfl
      have hle := hup.le t₀ List.mem_cons_self
      rcases List.mem_cons.mp ht with rfl | ht
      · omega
      · have hlt := hasc.1 (order bh'.nodes t) (List.mem_map.mpr ⟨t, ht, rfl⟩)
        omega

/-! ## Deletion -/

/-- A node keeps its children or loses them all, and in the latter case it is not a
child of another one. -/
theorem binomial_of_cut {q : Addr} (hb : Binomial nodes)
    (hlive : ∀ x ∈ nodes'.live, x ∈ nodes.live)
    (hkid : ∀ x ∈ nodes'.live, ∀ y ∈ childrenOf nodes' x, y ∈ nodes'.live ∧ y ≠ q)
    (hq : childrenOf nodes' q = [])
    (hother : ∀ x ∈ nodes'.live, x ≠ q → childrenOf nodes' x = childrenOf nodes x) :
    Binomial nodes' := by
  intro x hx
  by_cases hxq : x = q
  · subst hxq
    rw [order, hq]
    exact List.Perm.refl _
  · have horder : ∀ y ∈ childrenOf nodes' x, order nodes' y = order nodes y := by
      intro y hy
      obtain ⟨hylive, hyq⟩ := hkid x hx y hy
      rw [order, order, hother y hylive hyq]
    rw [List.map_congr_left horder, order, hother x hx hxq]
    exact hb x (hlive x hx)

theorem pairwise_cons_of_lt {l : List Addr} {x : Addr} {f : Addr → ℕ}
    (hlt : ∀ y ∈ l, f x < f y) (hl : (l.map f).Pairwise (· < ·)) :
    ((x :: l).map f).Pairwise (· < ·) := by
  rw [List.map_cons, List.pairwise_cons]
  refine ⟨?_, hl⟩
  intro j hj
  obtain ⟨y, hy, rfl⟩ := List.mem_map.mp hj
  exact hlt y hy

theorem Binomial.childrenOf_of_singleton (hb : Binomial nodes) (hr : r ∈ nodes.live)
    (hkids : childrenOf nodes r = [a]) : childrenOf nodes a = [] := by
  have hperm := hb r hr
  rw [order, hkids] at hperm
  have heq := List.perm_singleton.mp hperm.symm
  have hzero : order nodes a = 0 := (List.singleton_inj.mp heq).symm
  exact List.length_eq_zero_iff.mp hzero

/-- The roots of the heap after a deletion: one that has lost its children, or none at
all, before the other roots of the first tree. -/
theorem shape_of_cut {q : Addr} {rest : List Addr} (hs : BinomialShape bh)
    (h' : Consistent c bh') (htrees : bh.trees = r :: rest)
    (hlive : ∀ x ∈ bh'.nodes.live, x ∈ bh.nodes.live)
    (htrees' : bh'.trees = rest ∨ bh'.trees = q :: rest) (hq : childrenOf bh'.nodes q = [])
    (hkid : ∀ x ∈ bh'.nodes.live, ∀ y ∈ childrenOf bh'.nodes x, y ≠ q)
    (hrest : ∀ x ∈ rest, x ≠ q)
    (hother : ∀ x ∈ bh'.nodes.live, x ≠ q → childrenOf bh'.nodes x = childrenOf bh.nodes x) :
    BinomialShape bh' := by
  have hasc := hs.ascending
  rw [htrees, List.map_cons, List.pairwise_cons] at hasc
  have hin : ∀ x ∈ rest, x ∈ bh'.nodes.live := by
    intro x hx
    apply h'.ordered.trees_live
    rcases htrees' with heq | heq
    · rwa [heq]
    · rw [heq]
      exact List.mem_cons_of_mem q hx
  have horder : ∀ x ∈ rest, order bh'.nodes x = order bh.nodes x := by
    intro x hx
    rw [order, order, hother x (hin x hx) (hrest x hx)]
  have hpw : (rest.map (order bh'.nodes)).Pairwise (· < ·) := by
    rw [List.map_congr_left horder]
    exact hasc.2
  refine ⟨binomial_of_cut hs.binomial hlive
    (fun x hx y hy => ⟨h'.ordered.forest.mem_of_kid hx hy, hkid x hx y hy⟩) hq hother, ?_⟩
  rcases htrees' with heq | heq
  · rw [heq]
    exact hpw
  · rw [heq]
    apply pairwise_cons_of_lt _ hpw
    intro x hx
    have hlt := hasc.1 _ (List.mem_map.mpr ⟨x, hx, rfl⟩)
    rw [show order bh'.nodes q = 0 by rw [order, hq]; rfl, horder x hx]
    exact Nat.lt_of_le_of_lt (Nat.zero_le _) hlt

/-- A deletion from a small first tree keeps the shape. -/
theorem destroy_shape (h : Consistent c bh) (hs : BinomialShape bh) (h' : Consistent c bh')
    (hnodes : bh'.nodes = nodes'.kill a) (hsame : SameItems bh.nodes nodes')
    (hover : HandsOver bh bh'.trees nodes' a) (hsmall : InSmallFirstTree bh a) :
    BinomialShape bh' := by
  obtain ⟨r, hhead, hle, hmem⟩ := hsmall
  obtain ⟨rest, htrees⟩ := List.head?_eq_some_iff.mp hhead
  have hforest := h.ordered.forest
  have hrroot : r ∈ bh.trees := by rw [htrees]; exact List.mem_cons_self
  have hrlive := hforest.mem_of_root hrroot
  have hrestroot : ∀ x ∈ rest, x ∈ bh.trees := by
    intro x hx
    rw [htrees]
    exact List.mem_cons_of_mem r hx
  have hnotr : ∀ x ∈ rest, x ≠ r := by
    have hnodup := hforest.rootsNodup
    rw [htrees, List.nodup_cons] at hnodup
    rintro x hx rfl
    exact hnodup.1 hx
  have hlive' : bh'.nodes.live = bh.nodes.live.erase a := by
    rw [hnodes, Heap.live_kill, hsame.live_eq]
  have hlive : ∀ x ∈ bh'.nodes.live, x ∈ bh.nodes.live := by
    intro x hx
    rw [hlive'] at hx
    exact Finset.mem_of_mem_erase hx
  have hneq : ∀ x ∈ bh'.nodes.live, x ≠ a := by
    intro x hx
    rw [hlive'] at hx
    exact Finset.ne_of_mem_erase hx
  have hread : ∀ x, x ≠ a → childrenOf bh'.nodes x = childrenOf nodes' x := by
    intro x hx
    rw [hnodes, childrenOf, childrenOf, Heap.kill_apply, if_neg hx]
  have hsingle : ∀ d, d ∈ childrenOf bh.nodes r → childrenOf bh.nodes r = [d] := by
    intro d hd
    obtain ⟨x, hx⟩ := List.length_eq_one_iff.mp
      (Nat.le_antisymm hle (List.length_pos_of_mem hd))
    rw [hx] at hd ⊢
    rw [List.mem_singleton.mp hd]
  have hroot_eq : a ∈ bh.trees → a = r := by
    intro hroot
    rcases hmem with heq | hkid
    · exact heq
    · exact absurd rfl (hforest.kid_ne_root hrlive hkid hroot)
  cases hover with
  | inner p hpar htr hkids hother =>
      have har : a ≠ r := by
        rintro rfl
        rw [hforest.par_of_root hrroot] at hpar
        cases hpar
      have hakid := hmem.resolve_left har
      have hpr : p = r := by
        rw [hforest.par_of_kid hrlive hakid] at hpar
        exact (Option.some.inj hpar).symm
      subst hpr
      have hp : p ∈ bh'.trees := by rw [htr]; exact hrroot
      apply shape_of_cut hs h' htrees hlive (Or.inr (htr.trans htrees)) _
        (fun x hx y hy => h'.ordered.forest.kid_ne_root hx hy hp) hnotr
      · intro x hx hxp
        rw [hread x (hneq x hx), hother x hxp]
      · rw [hread p har.symm, hkids, hsingle a hakid,
          hs.binomial.childrenOf_of_singleton hrlive (hsingle a hakid)]
        simp
  | leafRoot hroot hleaf htr hother =>
      have har := hroot_eq hroot
      subst har
      rw [htrees, List.erase_cons_head] at htr
      apply shape_of_cut hs h' htrees hlive (Or.inl htr) _
        (fun x hx y hy => hneq y (h'.ordered.forest.mem_of_kid hx hy)) hnotr
      · intro x _ hxa
        rw [hread x hxa, hother x]
      · rw [hnodes, childrenOf, Heap.kill_apply, if_pos rfl]
        rfl
  | innerRoot d hroot hd htr hkids hother =>
      have har := hroot_eq hroot
      subst har
      have hda : d ≠ a := hforest.kid_ne_root hrlive hd hroot
      rw [htrees, List.erase_cons_head, List.idxOf_cons_self, List.insertIdx_zero] at htr
      have hdroot : d ∈ bh'.trees := by rw [htr]; exact List.mem_cons_self
      apply shape_of_cut hs h' htrees hlive (Or.inr htr) _
        (fun x hx y hy => h'.ordered.forest.kid_ne_root hx hy hdroot)
        (fun x hx => (hforest.kid_ne_root hrlive hd (hrestroot x hx)).symm)
      · intro x hx hxd
        rw [hread x (hneq x hx), hother x hxd]
      · rw [hread d hda, hkids, hsingle d hd,
          hs.binomial.childrenOf_of_singleton hrlive (hsingle d hd)]
        simp

/-- Deletion of a node in a small first tree. -/
theorem binomialTreeNodeDestroy_shape (h : Consistent c bh) (hs : BinomialShape bh)
    {n : BinomialTreeNode K V} (hn : bh.nodes a = some n) {i : ℕ}
    (hi : a ∈ bh.trees → i ≠ 0 → bh.trees[i]? = some a) (hsmall : InSmallFirstTree bh a) :
    ∃ bh', binomialTreeNodeDestroy c.cmp bh a i = some bh' ∧ Consistent c bh' ∧
      BinomialShape bh' := by
  obtain ⟨bh', nodes', hrun, h', -, -, hnodes, hsame, hover⟩ :=
    binomialTreeNodeDestroy_handsOver h hn hi
  exact ⟨bh', hrun, h', destroy_shape h hs h' hnodes hsame hover hsmall⟩

theorem deleteExtremum_shape {side : BinheapMode} (h : Consistent c bh) (hs : BinomialShape bh)
    (hsmall : ∀ a ∈ (getExtremum c.cmp bh side).bind Prod.fst, InSmallFirstTree bh a) :
    ∃ bh' o, deleteExtremum c.cmp bh side = some (bh', o) ∧ Consistent c bh' ∧
      BinomialShape bh' := by
  obtain ⟨⟨node, i⟩, hget, hfinds⟩ := getExtremum_finds c h.ordered h.headTop side
  cases node with
  | none => exact ⟨bh, (-1, none), by simp [deleteExtremum, hget], h, hs⟩
  | some a =>
      obtain ⟨n, hn⟩ := Heap.exists_of_mem_live (hfinds.mem a rfl)
      obtain ⟨bh', hrun, h', hs'⟩ := binomialTreeNodeDestroy_shape h hs hn
        (hfinds.index a rfl) (hsmall a (by rw [hget]; rfl))
      exact ⟨bh', (0, some n.value), by simp [deleteExtremum, hget, hn, hrun], h', hs'⟩

theorem binheapDelete_shape (h : Consistent c bh) (hs : BinomialShape bh) (key : K)
    (hsmall : DeletesSmall c.cmp bh (.delete key)) :
    ∃ bh' o, binheapDelete c.cmp bh key = some (bh', o) ∧ Consistent c bh' ∧
      BinomialShape bh' := by
  obtain ⟨bh', o, hrun, h', -, -⟩ := binheapDelete_spec h key
  refine ⟨bh', o, hrun, h', ?_⟩
  unfold binheapDelete at hrun
  obtain ⟨cands, hcands, hrun⟩ := Option.bind_eq_some_iff.mp hrun
  cases hclose : closestTo c.cmp bh.mode key cands none with
  | none =>
      rw [hclose] at hrun
      cases hrun
      exact hs
  | some tree =>
      simp only [hclose] at hrun
      obtain ⟨found, hsearch, hrun⟩ := Option.bind_eq_some_iff.mp hrun
      cases found with
      | none =>
          cases hrun
          exact hs
      | some a =>
          obtain ⟨n, hn, hrun⟩ := Option.bind_eq_some_iff.mp hrun
          obtain ⟨bh₁, hdestroy, hrun⟩ := Option.bind_eq_some_iff.mp hrun
          cases hrun
          have hdel : deletedNode c.cmp bh (.delete key) = some a := by
            simp [deletedNode, hcands, hclose, hsearch]
          obtain ⟨bh₂, hrun₂, -, hs'⟩ := binomialTreeNodeDestroy_shape h hs hn
            (fun _ hzero => absurd rfl hzero) (hsmall a hdel)
          rw [hrun₂] at hdestroy
          cases hdestroy
          exact hs'

/-! ## Runs -/

theorem BinomialShape.create (mode : BinheapMode) :
    BinomialShape (binheapCreate mode : BinHeap K V) where
  binomial := fun _ ha => absurd ha (Finset.notMem_empty _)
  ascending := List.Pairwise.nil

theorem stepOp_shape (op : BinheapOp K V) (h : Consistent c bh) (hs : BinomialShape bh)
    (hok : DeletesSmall c.cmp bh op) :
    ∃ bh' o, stepOp c.cmp bh op = some (bh', o) ∧ Consistent c bh' ∧ BinomialShape bh' := by
  cases op with
  | insert key value =>
      obtain ⟨bh', hrun, h', hs'⟩ := binheapInsert_shape h hs key value
      exact ⟨bh', (0, none), by simp [stepOp, hrun], h', hs'⟩
  | deleteMaximum => exact deleteExtremum_shape h hs hok
  | deleteMinimum => exact deleteExtremum_shape h hs hok
  | delete key => exact binheapDelete_shape h hs key hok

/-- In every run whose deletions take their node from a first tree with at most two
nodes, all trees stay binomial, their orders ascend, and their number is the number of
one bits of the count. -/
theorem run_keeps_binomial_shape (c : Comparator K) (mode : BinheapMode)
    (ops : List (BinheapOp K V))
    (hops : StepsMeet (stepOp c.cmp) (DeletesSmall c.cmp) (binheapCreate mode) ops) :
    ∃ bh outs, runSteps (stepOp c.cmp) (binheapCreate mode) ops = some (bh, outs) ∧
      BinomialForest bh := by
  obtain ⟨bh, outs, hrun, h, hs⟩ := runSteps_keeps
    (fun bh op (hinv : Consistent c bh ∧ BinomialShape bh) hok =>
      stepOp_shape op hinv.1 hinv.2 hok) ops _
    ⟨Consistent.create c mode, BinomialShape.create mode⟩ hops
  exact ⟨bh, outs, hrun, hs.forest h⟩

/-- Deletions from a tree of one node and from a tree of two nodes. -/
def smallDeletions : List (BinheapOp ℕ Unit) :=
  [.insert 5 (), .insert 3 (), .insert 9 (), .deleteMaximum, .deleteMinimum, .insert 4 ()]

theorem run_keeps_binomial_shape_smallDeletions :
    StepsMeet (stepOp natComparator.cmp) (DeletesSmall natComparator.cmp) (binheapCreate .max)
        smallDeletions ∧
      ∃ bh outs, runSteps (stepOp natComparator.cmp) (binheapCreate .max) smallDeletions =
        some (bh, outs) ∧ BinomialForest bh := by
  have hops : StepsMeet (stepOp natComparator.cmp) (DeletesSmall natComparator.cmp)
      (binheapCreate .max) smallDeletions := by
    decide
  exact ⟨hops, run_keeps_binomial_shape natComparator.toComparator .max smallDeletions hops⟩

/-- The root of a tree of four nodes is deleted. -/
def largeDeletion : List (BinheapOp ℕ Unit) :=
  [.insert 1 (), .insert 2 (), .insert 3 (), .insert 4 (), .deleteMaximum]

/-- Three items are left in one tree. -/
theorem largeDeletion_breaks_shape :
    ¬ ∀ (ops : List (BinheapOp ℕ Unit)) (bh : BinHeap ℕ Unit) (outs : List (ℤ × Option Unit)),
      (∀ op ∈ ops, ∀ key, op ≠ .delete key) →
      runSteps (stepOp natComparator.cmp) (binheapCreate .max) ops = some (bh, outs) →
      BinomialForest bh := by
  intro hall
  have hrun : (runSteps (stepOp natComparator.cmp) (binheapCreate .max)
      largeDeletion).map (fun r => (r.1.trees.length, r.1.count)) = some (1, 3) := by
    decide
  obtain ⟨⟨bh, outs⟩, hbh, hsizes⟩ := Option.map_eq_some_iff.mp hrun
  obtain ⟨-, -, hbits⟩ := hall largeDeletion bh outs (by simp [largeDeletion]) hbh
  obtain ⟨hlen, hcount⟩ := Prod.mk.inj hsizes
  have hthree : (3 : ℕ).bitIndices.length = 2 := by
    rw [show 3 = 2 * 1 + 1 from rfl, Nat.bitIndices_two_mul_add_one]
    simp
  rw [hlen, hcount] at hbits
  exact absurd (hbits.trans hthree) (by decide)

end BinHeap
end LibHL
