import LibHL.BinHeap.Model
import LibHL.Support.Comparator
import LibHL.Support.Forest
import LibHL.Support.LiveCells

/-!
# What a consistent binomial heap is

The live nodes form a forest whose parent pointers and child arrays agree, every
parent has precedence over its children, and the cached head is a root with
precedence over all nodes.  The searches that only read the heap are specified
here.
-/

namespace LibHL
namespace BinHeap

variable {K V : Type}

/-! ## Precedence -/

variable (c : Comparator K) {side mode : BinheapMode} {k k₁ k₂ k₃ : K}

theorem hasPrecedence_total (side : BinheapMode) (k₁ k₂ : K) :
    HasPrecedence c.cmp side k₁ k₂ ∨ HasPrecedence c.cmp side k₂ k₁ := by
  cases side with
  | max => exact (c.total k₂ k₁).imp (c.dual k₁ k₂).mpr (c.dual k₂ k₁).mpr
  | min => exact c.total k₁ k₂

theorem hasPrecedence_refl (side : BinheapMode) (k : K) : HasPrecedence c.cmp side k k :=
  (hasPrecedence_total c side k k).elim id id

theorem hasPrecedence_trans (h₁ : HasPrecedence c.cmp side k₁ k₂)
    (h₂ : HasPrecedence c.cmp side k₂ k₃) : HasPrecedence c.cmp side k₁ k₃ := by
  cases side with
  | max => exact c.trans_ge h₁ h₂
  | min => exact c.trans k₁ k₂ k₃ h₁ h₂

/-- A replacement test that decides the order `dom`. -/
structure Chooses (replace : K → K → Bool) (dom : K → K → Prop) : Prop where
  trans : ∀ k₁ k₂ k₃, dom k₁ k₂ → dom k₂ k₃ → dom k₁ k₃
  yes : ∀ k b, replace k b = true → dom k b
  no : ∀ k b, replace k b = false → dom b k

theorem chooses_child_max :
    Chooses (fun cur max => decide (0 ≤ c.cmp cur max)) (HasPrecedence c.cmp .max) where
  trans := fun _ _ _ => hasPrecedence_trans c
  yes := fun _ _ h => of_decide_eq_true h
  no := fun k b h =>
    (hasPrecedence_total c .max b k).resolve_right (of_decide_eq_false h)

theorem chooses_child_min :
    Chooses (fun cur min => decide (c.cmp cur min ≤ 0)) (HasPrecedence c.cmp .min) where
  trans := fun _ _ _ => hasPrecedence_trans c
  yes := fun _ _ h => of_decide_eq_true h
  no := fun k b h =>
    (hasPrecedence_total c .min b k).resolve_right (of_decide_eq_false h)

theorem chooses_root (side : BinheapMode) :
    Chooses (rootReplaces c.cmp side) (HasPrecedence c.cmp side) := by
  cases side with
  | max => exact chooses_child_max c
  | min =>
      refine ⟨fun _ _ _ => hasPrecedence_trans c, ?_, ?_⟩
      · intro k b h
        have hlt : ¬ 0 ≤ c.cmp k b := of_decide_eq_true h
        exact Int.le_of_lt (Int.not_le.mp hlt)
      · intro k b h
        have hle : ¬ ¬ 0 ≤ c.cmp k b := of_decide_eq_false h
        exact (c.dual k b).mp (not_not.mp hle)

/-- The walk ends with a key that dominates those it passed. -/
theorem selectFrom_dominates {replace : K → K → Bool} {dom : K → K → Prop}
    (hch : Chooses replace dom) (ks : List K) :
    ∀ (pre : List K) (best : ℕ) (bestKey : K), pre[best]? = some bestKey →
      (∀ k ∈ pre, dom bestKey k) →
      ∃ k, (pre ++ ks)[selectFrom replace best bestKey pre.length ks]? = some k ∧
        ∀ k' ∈ pre ++ ks, dom k k' := by
  induction ks with
  | nil =>
      intro pre best bestKey hbest hdom
      rw [List.append_nil]
      exact ⟨bestKey, hbest, hdom⟩
  | cons k ks ih =>
      intro pre best bestKey hbest hdom
      have hlen : (pre ++ [k]).length = pre.length + 1 := by simp
      have hsplit : pre ++ k :: ks = (pre ++ [k]) ++ ks := by simp
      rw [hsplit]
      cases hrep : replace k bestKey with
      | true =>
          simp only [selectFrom, hrep, if_true]
          rw [← hlen]
          refine ih (pre ++ [k]) pre.length k (by simp) ?_
          intro k' hk'
          rcases List.mem_append.mp hk' with hk' | hk'
          · exact hch.trans k bestKey k' (hch.yes k bestKey hrep) (hdom k' hk')
          · rw [List.mem_singleton.mp hk']
            cases hself : replace k k with
            | true => exact hch.yes k k hself
            | false => exact hch.no k k hself
      | false =>
          simp only [selectFrom, hrep, Bool.false_eq_true, if_false]
          rw [← hlen]
          refine ih (pre ++ [k]) best bestKey ?_ ?_
          · rw [List.getElem?_append_left, hbest]
            exact (List.getElem?_eq_some_iff.mp hbest).1
          · intro k' hk'
            rcases List.mem_append.mp hk' with hk' | hk'
            · exact hdom k' hk'
            · rw [List.mem_singleton.mp hk']
              exact hch.no k bestKey hrep

theorem selectIndex_dominates {replace : K → K → Bool} {dom : K → K → Prop}
    (hch : Chooses replace dom) {ks : List K} (hne : ks ≠ []) :
    ∃ i k, selectIndex replace ks = some i ∧ ks[i]? = some k ∧ ∀ k' ∈ ks, dom k k' := by
  cases ks with
  | nil => exact absurd rfl hne
  | cons k ks =>
      have hself : dom k k := by
        cases hself : replace k k with
        | true => exact hch.yes k k hself
        | false => exact hch.no k k hself
      obtain ⟨k', hk', hdom⟩ := selectFrom_dominates hch ks [k] 0 k rfl (by simpa using hself)
      exact ⟨_, k', rfl, hk', hdom⟩

/-! ## Nodes and their relatives -/

/-- The parent of a node. -/
def parentOf (nodes : Heap (BinomialTreeNode K V)) (a : Addr) : Option Addr :=
  (nodes a).bind BinomialTreeNode.parent

/-- The children of a node. -/
def childrenOf (nodes : Heap (BinomialTreeNode K V)) (a : Addr) : List Addr :=
  ((nodes a).map BinomialTreeNode.children).getD []

/-- The nodes of a tree, down to a given depth. -/
def subtree (nodes : Heap (BinomialTreeNode K V)) : ℕ → Addr → List Addr
  | 0, _ => []
  | depth + 1, a => a :: (childrenOf nodes a).flatMap (subtree nodes depth)

/-- What a node stores. -/
def item (n : BinomialTreeNode K V) : K × V := (n.key, n.value)

/-- The bag of the stored items. -/
def contents (bh : BinHeap K V) : Multiset (K × V) := bh.nodes.bag item

/-- The relinking of nodes leaves their keys and values alone. -/
def SameItems (nodes nodes' : Heap (BinomialTreeNode K V)) : Prop :=
  Heap.SameThrough item nodes nodes'

/-- The first node has precedence over the second one. -/
def Above (cmp : K → K → ℤ) (side : BinheapMode) (nodes : Heap (BinomialTreeNode K V))
    (a b : Addr) : Prop :=
  ∀ k l, keyOf nodes a = some k → keyOf nodes b = some l → HasPrecedence cmp side k l

instance decidableAbove (cmp : K → K → ℤ) (side : BinheapMode)
    (nodes : Heap (BinomialTreeNode K V)) (a b : Addr) : Decidable (Above cmp side nodes a b) :=
  match ha : keyOf nodes a, hb : keyOf nodes b with
  | none, _ => isTrue (by intro k l hk _; rw [ha] at hk; cases hk)
  | some _, none => isTrue (by intro k l _ hl; rw [hb] at hl; cases hl)
  | some k, some l =>
      decidable_of_iff (HasPrecedence cmp side k l) (by simp [Above, ha, hb])

variable {nodes nodes' : Heap (BinomialTreeNode K V)} {trees : List Addr}
  {a b d : Addr} {n m : BinomialTreeNode K V} {bh : BinHeap K V}

theorem parentOf_eq (ha : nodes a = some n) : parentOf nodes a = n.parent := by
  rw [parentOf, ha, Option.bind_some]

theorem childrenOf_eq (ha : nodes a = some n) : childrenOf nodes a = n.children := by
  rw [childrenOf, ha, Option.map_some, Option.getD_some]

theorem keyOf_eq (ha : nodes a = some n) : keyOf nodes a = some n.key := by
  rw [keyOf, ha, Option.map_some]

theorem SameItems.keyOf_eq (hs : SameItems nodes nodes') (a : Addr) :
    keyOf nodes' a = keyOf nodes a := by
  have hmap := congrArg (Option.map Prod.fst) (hs a)
  rw [Option.map_map, Option.map_map] at hmap
  exact hmap

theorem SameItems.above_iff {cmp : K → K → ℤ} (hs : SameItems nodes nodes') :
    Above cmp side nodes' a b ↔ Above cmp side nodes a b := by
  rw [Above, Above, hs.keyOf_eq, hs.keyOf_eq]

theorem above_refl (a : Addr) : Above c.cmp side nodes a a := by
  intro k l hk hl
  rw [hk] at hl
  cases hl
  exact hasPrecedence_refl c side k

theorem above_trans (hb : b ∈ nodes.live) (h₁ : Above c.cmp side nodes a b)
    (h₂ : Above c.cmp side nodes b d) : Above c.cmp side nodes a d := by
  obtain ⟨n, hn⟩ := Heap.exists_of_mem_live hb
  intro k l hk hl
  exact hasPrecedence_trans c (h₁ k n.key hk (keyOf_eq hn)) (h₂ n.key l (keyOf_eq hn) hl)

/-- The live nodes form a heap-ordered forest. -/
structure Ordered (mode : BinheapMode) (nodes : Heap (BinomialTreeNode K V))
    (trees : List Addr) : Prop where
  forest : Forest nodes.live trees (parentOf nodes) (childrenOf nodes)
  above : ∀ a ∈ nodes.live, ∀ b ∈ childrenOf nodes a, Above c.cmp mode nodes a b

/-- A root with precedence over every node. -/
def IsTop (bh : BinHeap K V) (a : Addr) : Prop :=
  a ∈ bh.trees ∧ ∀ b ∈ bh.nodes.live, Above c.cmp bh.mode bh.nodes a b

/-- The heap-ordered forest, its counter and its cached head agree. -/
structure Consistent (bh : BinHeap K V) : Prop where
  ordered : Ordered c bh.mode bh.nodes bh.trees
  count : bh.count = bh.nodes.live.card
  headNone : bh.head = none → bh.nodes.live = ∅
  headTop : ∀ a, bh.head = some a → IsTop c bh a

/-! ## Reading the keys of a list of nodes -/

theorem mapM_of_isSome {α β : Type} {f : α → Option β} {l : List α}
    (h : ∀ a ∈ l, (f a).isSome) : ∃ ks, l.mapM f = some ks ∧ ks.map some = l.map f := by
  induction l with
  | nil => exact ⟨[], rfl, rfl⟩
  | cons a l ih =>
      obtain ⟨k, hk⟩ := Option.isSome_iff_exists.mp (h a List.mem_cons_self)
      obtain ⟨ks, hks, hmap⟩ := ih fun b hb => h b (List.mem_cons_of_mem a hb)
      refine ⟨k :: ks, ?_, ?_⟩
      · simp [List.mapM_cons, hk, hks]
      · simp [hk, hmap]

/-- The choice among the nodes of a list, as the child searches and the root
search make it. -/
theorem choose_dominates {replace : K → K → Bool} (hch : Chooses replace
    (HasPrecedence c.cmp side)) {l : List Addr} (hlive : ∀ a ∈ l, a ∈ nodes.live)
    (hne : l ≠ []) :
    ∃ i a, (do let keys ← l.mapM (keyOf nodes); some (selectIndex replace keys)) =
        some (some i) ∧ l[i]? = some a ∧ ∀ b ∈ l, Above c.cmp side nodes a b := by
  have hsome : ∀ a ∈ l, (keyOf nodes a).isSome := by
    intro a ha
    rw [keyOf, Option.isSome_map]
    exact Heap.mem_live.mp (hlive a ha)
  obtain ⟨ks, hks, hmap⟩ := mapM_of_isSome hsome
  have hksne : ks ≠ [] := by
    rintro rfl
    exact hne (List.map_eq_nil_iff.mp hmap.symm)
  obtain ⟨i, k, hi, hik, hdom⟩ := selectIndex_dominates hch hksne
  have hget : (l.map (keyOf nodes))[i]? = some (some k) := by
    rw [← hmap, List.getElem?_map, hik, Option.map_some]
  rw [List.getElem?_map] at hget
  obtain ⟨a, ha, hka⟩ := Option.map_eq_some_iff.mp hget
  refine ⟨i, a, by simp [hks, hi], ha, ?_⟩
  intro b hb k₁ k₂ hk₁ hk₂
  rw [hka] at hk₁
  cases hk₁
  refine hdom k₂ ?_
  have hmem : some k₂ ∈ l.map (keyOf nodes) := List.mem_map.mpr ⟨b, hb, hk₂⟩
  rw [← hmap, List.mem_map] at hmem
  obtain ⟨k₃, hk₃, heq⟩ := hmem
  cases heq
  exact hk₃

theorem findChildOf_nil (cmp : K → K → ℤ) (side : BinheapMode) (hnil : n.children = []) :
    findChildOf cmp side nodes n = some none := by
  cases side with
  | max => simp [findChildOf, binomialTreeNodeFindMaxChild, findChild, hnil, selectIndex]
  | min => simp [findChildOf, binomialTreeNodeFindMinChild, findChild, hnil, selectIndex]

theorem findChildOf_dominates (side : BinheapMode) (hlive : ∀ a ∈ n.children, a ∈ nodes.live)
    (hne : n.children ≠ []) :
    ∃ i a, findChildOf c.cmp side nodes n = some (some i) ∧ n.children[i]? = some a ∧
      ∀ b ∈ n.children, Above c.cmp side nodes a b := by
  cases side with
  | max => exact choose_dominates c (chooses_child_max c) hlive hne
  | min => exact choose_dominates c (chooses_child_min c) hlive hne

theorem binheapMaxmin_nil (bh : BinHeap K V) (cmp : K → K → ℤ) (side : BinheapMode) (hnil : bh.trees = []) :
    binheapMaxmin cmp bh side = some none := by
  simp [binheapMaxmin, hnil, selectIndex]

theorem binheapMaxmin_dominates (bh : BinHeap K V) (side : BinheapMode)
    (hlive : ∀ a ∈ bh.trees, a ∈ bh.nodes.live) (hne : bh.trees ≠ []) :
    ∃ i a, binheapMaxmin c.cmp bh side = some (some i) ∧ bh.trees[i]? = some a ∧
      ∀ b ∈ bh.trees, Above c.cmp side bh.nodes a b :=
  choose_dominates c (chooses_root c side) hlive hne

/-! ## The extreme node -/

namespace Ordered

variable {c}

theorem children_live (h : Ordered c mode nodes trees) (ha : nodes a = some n) :
    ∀ b ∈ n.children, b ∈ nodes.live := by
  intro b hb
  rw [← childrenOf_eq ha] at hb
  exact h.forest.mem_of_kid (Heap.mem_live_of_eq_some ha) hb

theorem trees_live (h : Ordered c mode nodes trees) : ∀ a ∈ trees, a ∈ nodes.live :=
  fun _ ha => h.forest.mem_of_root ha

theorem exists_root_above (h : Ordered c mode nodes trees) :
    ∀ b ∈ nodes.live, ∃ r ∈ trees, Above c.cmp mode nodes r b := by
  refine h.forest.induct ?_ ?_
  · intro r hr
    exact ⟨r, hr, above_refl c r⟩
  · rintro a ha ⟨r, hr, hra⟩ b hb
    exact ⟨r, hr, above_trans c ha hra (h.above a ha b hb)⟩

/-- A root with precedence over the roots has precedence over all nodes. -/
theorem above_all (h : Ordered c mode nodes trees)
    (hroots : ∀ r ∈ trees, Above c.cmp mode nodes a r) :
    ∀ b ∈ nodes.live, Above c.cmp mode nodes a b := by
  intro b hb
  obtain ⟨r, hr, hrb⟩ := h.exists_root_above b hb
  exact above_trans c (h.trees_live r hr) (hroots r hr) hrb

theorem live_eq_empty (h : Ordered c mode nodes []) : nodes.live = ∅ := by
  rw [Finset.eq_empty_iff_forall_notMem]
  intro b hb
  obtain ⟨r, hr, -⟩ := h.exists_root_above b hb
  cases hr

end Ordered

/-- The descent ends at a leaf; unless it is where it started, the leaf has a
parent. -/
theorem descend_spec
    (hf : Forest nodes.live trees (parentOf nodes) (childrenOf nodes)) {rank : Addr → ℕ}
    (hrank : ∀ a ∈ nodes.live, ∀ b ∈ childrenOf nodes a, rank b < rank a)
    (side : BinheapMode) :
    ∀ (fuel : ℕ) (a : Addr), a ∈ nodes.live → rank a < fuel →
      ∃ l ∈ nodes.live, descend c.cmp side nodes fuel a = some l ∧
        childrenOf nodes l = [] ∧ (l = a ∨ parentOf nodes l ≠ none) := by
  intro fuel
  induction fuel with
  | zero =>
      intro a _ hlt
      exact absurd hlt (Nat.not_lt_zero _)
  | succ fuel ih =>
      intro a ha hlt
      obtain ⟨n, hn⟩ := Heap.exists_of_mem_live ha
      by_cases hnil : n.children = []
      · refine ⟨a, ha, ?_, by rw [childrenOf_eq hn, hnil], Or.inl rfl⟩
        simp [descend, hn, findChildOf_nil c.cmp side hnil]
      · have hkids : ∀ b ∈ n.children, b ∈ nodes.live := by
          intro b hb
          rw [← childrenOf_eq hn] at hb
          exact hf.mem_of_kid ha hb
        obtain ⟨i, b, hi, hib, -⟩ := findChildOf_dominates c side hkids hnil
        have hb : b ∈ childrenOf nodes a := by
          rw [childrenOf_eq hn]
          exact List.mem_of_getElem? hib
        have hblive := hf.mem_of_kid ha hb
        have hbrank := hrank a ha b hb
        obtain ⟨l, hl, hdesc, hleaf, hpar⟩ := ih b hblive (by omega)
        refine ⟨l, hl, ?_, hleaf, Or.inr ?_⟩
        · simp [descend, hn, hi, hib, hdesc]
        · rcases hpar with rfl | hpar
          · rw [hf.par_of_kid ha hb]
            exact Option.some_ne_none a
          · exact hpar

/-- What the search for an extreme node finds: nothing in an empty heap, else a
live node, with its index if it is a root, which has precedence over all nodes at
the end the heap is organised for. -/
structure Finds (bh : BinHeap K V) (side : BinheapMode) (r : Option Addr × ℕ) : Prop where
  none : r.1 = none → bh.nodes.live = ∅
  mem : ∀ a, r.1 = some a → a ∈ bh.nodes.live
  index : ∀ a, r.1 = some a → a ∈ bh.trees → r.2 ≠ 0 → bh.trees[r.2]? = some a
  top : ∀ a, r.1 = some a → bh.mode = side → IsTop c bh a

theorem getExtremum_finds (h : Ordered c bh.mode bh.nodes bh.trees)
    (htop : ∀ a, bh.head = some a → IsTop c bh a) (side : BinheapMode) :
    ∃ r, getExtremum c.cmp bh side = some r ∧ Finds c bh side r := by
  by_cases hcached : bh.mode = side ∧ bh.head.isSome
  · obtain ⟨a, ha⟩ := Option.isSome_iff_exists.mp hcached.2
    refine ⟨(bh.head, 0), by rw [getExtremum, if_pos hcached], ?_, ?_, ?_, ?_⟩
    · intro hnone
      rw [ha] at hnone
      cases hnone
    · intro b hb
      exact h.trees_live b (htop b hb).1
    · intro b _ _ hzero
      exact absurd rfl hzero
    · intro b hb _
      exact htop b hb
  rw [getExtremum, if_neg hcached]
  by_cases hnil : bh.trees = []
  · refine ⟨(none, 0), by simp [binheapMaxmin_nil bh c.cmp side hnil], ?_, ?_, ?_, ?_⟩
    · intro _
      rw [hnil] at h
      exact h.live_eq_empty
    all_goals
      intro b hb
      cases hb
  obtain ⟨i, r, hi, hir, hdom⟩ := binheapMaxmin_dominates c bh side h.trees_live hnil
  have hr : r ∈ bh.trees := List.mem_of_getElem? hir
  by_cases hmode : bh.mode = side
  · refine ⟨(some r, i), by simp [hi, hir, hmode], ?_, ?_, ?_, ?_⟩
    · intro hnone
      cases hnone
    · rintro b ⟨⟩
      exact h.trees_live r hr
    · rintro b ⟨⟩ _ _
      exact hir
    · rintro b ⟨⟩ _
      rw [← hmode] at hdom
      exact ⟨hr, h.above_all hdom⟩
  · obtain ⟨rank, hrank, hcard⟩ := h.forest.exists_rank_lt
    have hfuel : rank r < bh.nodes.brk :=
      Nat.lt_of_lt_of_le (hcard r (h.trees_live r hr)) bh.nodes.card_live_le_brk
    obtain ⟨l, hl, hdesc, -, hpar⟩ :=
      descend_spec c h.forest hrank side bh.nodes.brk r (h.trees_live r hr) hfuel
    refine ⟨(some l, i), by simp [hi, hir, hmode, hdesc], ?_, ?_, ?_, ?_⟩
    · intro hnone
      cases hnone
    · rintro b ⟨⟩
      exact hl
    · rintro b ⟨⟩ hroot _
      rcases hpar with rfl | hpar
      · exact hir
      · exact absurd (h.forest.par_of_root hroot) hpar
    · rintro b ⟨⟩ heq
      exact absurd heq hmode

/-! ## Every node once -/

/-- From some depth on, the nodes of a tree do not depend on the depth. -/
theorem subtree_eq_of_rank {rank : Addr → ℕ}
    (hrank : ∀ a ∈ nodes.live, ∀ x ∈ childrenOf nodes a, rank x < rank a)
    (hkid : ∀ a ∈ nodes.live, ∀ x ∈ childrenOf nodes a, x ∈ nodes.live) :
    ∀ (d d' : ℕ) (a : Addr), a ∈ nodes.live → rank a < d → rank a < d' →
      subtree nodes d a = subtree nodes d' a := by
  intro d
  induction d with
  | zero =>
      intro d' a _ hlt _
      exact absurd hlt (Nat.not_lt_zero _)
  | succ d ih =>
      intro d' a ha hlt hlt'
      cases d' with
      | zero => exact absurd hlt' (Nat.not_lt_zero _)
      | succ d' =>
          rw [subtree, subtree]
          congr 1
          apply List.flatMap_congr
          intro x hx
          have hx' := hrank a ha x hx
          exact ih d' x (hkid a ha x hx) (by omega) (by omega)

theorem coe_flatMap_eq_sum (l : List Addr) (f : Addr → List Addr) :
    ((l.flatMap f : List Addr) : Multiset Addr) =
      (l.map fun x => (f x : Multiset Addr)).sum := by
  induction l with
  | nil => rfl
  | cons x l ih =>
      rw [List.flatMap_cons, List.map_cons, List.sum_cons, ← ih]
      rfl

/-- A walk over the trees of a forest meets every node exactly once. -/
theorem flatMap_subtree_perm {par : Addr → Option Addr}
    (hf : Forest nodes.live trees par (childrenOf nodes)) :
    (trees.flatMap (subtree nodes nodes.brk)).Perm nodes.live.toList := by
  obtain ⟨rank, hrank, hcard⟩ := hf.exists_rank_lt
  have hlt : ∀ a ∈ nodes.live, rank a < nodes.brk :=
    fun a ha => Nat.lt_of_lt_of_le (hcard a ha) nodes.card_live_le_brk
  have hgrow : ∀ a ∈ nodes.live, (subtree nodes nodes.brk a : Multiset Addr) =
      {a} + ((childrenOf nodes a).map fun x => (subtree nodes nodes.brk x : Multiset Addr)).sum := by
    intro a ha
    rw [subtree_eq_of_rank hrank (fun x hx y hy => hf.mem_of_kid hx hy) nodes.brk
      (nodes.brk + 1) a ha (hlt a ha) (Nat.lt_succ_of_lt (hlt a ha)), subtree,
      ← coe_flatMap_eq_sum]
    rfl
  rw [← Multiset.coe_eq_coe, coe_flatMap_eq_sum, hf.sum_roots hgrow,
    Finset.sum_multiset_singleton, Finset.coe_toList]

end BinHeap
end LibHL
