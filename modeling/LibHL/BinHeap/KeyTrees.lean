import LibHL.BinHeap.SinglePath
import LibHL.Support.KeyForest

/-!
# The trees of a heap by their keys

What a search at the other end finds depends only on the keys and on their places in the
trees, and an insertion does to the trees what it does to a forest of keys.  So the keys of
a heap tell what a search will find, and what it would find after an insertion.
-/

namespace LibHL
namespace BinHeap

variable {K V : Type}

section Keys

variable (cmp : K → K → ℤ) (side : BinheapMode)

/-- The keys of the tree under a node, which must end above a given depth. -/
def keyTree (nodes : Heap (BinomialTreeNode K V)) : ℕ → Addr → Option (KeyTree K)
  | 0, _ => none
  | depth + 1, a => do
      let key ← keyOf nodes a
      let ts ← (childrenOf nodes a).mapM (keyTree nodes depth)
      some (.node key ts)

/-- The keys of the trees of a heap. -/
def keyForest (bh : BinHeap K V) : Option (List (KeyTree K)) :=
  bh.trees.mapM (keyTree bh.nodes bh.nodes.brk)

/-- When a child takes over in the two functions that look for one. -/
def childReplaces (cur best : K) : Bool :=
  match side with
  | .max => 0 ≤ cmp cur best
  | .min => cmp cur best ≤ 0

/-- A key with precedence over all the keys of some trees. -/
def Foremost (ts : List (KeyTree K)) (k : K) : Prop :=
  ∀ l ∈ KeyTree.allKeys ts, HasPrecedence cmp side k l

instance decidableForemost (ts : List (KeyTree K)) (k : K) :
    Decidable (Foremost cmp side ts k) :=
  List.decidableBAll (HasPrecedence cmp side k) (KeyTree.allKeys ts)

/-- The search for a foremost key among trees never leaves all of them behind in a branch
it does not take. -/
def ForestLosesNone (ts : List (KeyTree K)) : Prop :=
  KeyTree.SearchLosesNone (selectIndex (childReplaces cmp side)) (Foremost cmp side ts)
    (selectIndex (rootReplaces cmp side)) ts

instance decidableForestLosesNone (ts : List (KeyTree K)) :
    Decidable (ForestLosesNone cmp side ts) :=
  KeyTree.decidableSearchLosesNone _ _ _ ts

end Keys

variable {c : Comparator K} {cmp : K → K → ℤ} {side mode : BinheapMode}
  {nodes nodes' : Heap (BinomialTreeNode K V)} {bh : BinHeap K V} {trees : List Addr}
  {a p r : Addr} {t u : KeyTree K} {ts us : List (KeyTree K)} {d : ℕ}

theorem mapM_eq_some_iff {α β : Type} {f : α → Option β} {xs : List α} {ys : List β} :
    xs.mapM f = some ys ↔ xs.map f = ys.map some := by
  induction xs generalizing ys with
  | nil => cases ys <;> simp
  | cons x xs ih =>
      cases ys with
      | nil =>
          cases hx : f x <;> cases hxs : xs.mapM f <;> simp [List.mapM_cons, hx, hxs]
      | cons y ys =>
          rw [List.map_cons, List.map_cons, List.cons_eq_cons, ← ih]
          cases hx : f x <;> cases hxs : xs.mapM f <;> simp [List.mapM_cons, hx, hxs]

theorem keyTree_succ_iff : keyTree nodes (d + 1) a = some t ↔
    keyOf nodes a = some t.key ∧
      (childrenOf nodes a).map (keyTree nodes d) = t.children.map some := by
  rw [← mapM_eq_some_iff, keyTree]
  obtain ⟨k, ts⟩ := t
  cases hkey : keyOf nodes a <;>
    cases hkids : (childrenOf nodes a).mapM (keyTree nodes d) <;>
      simp [KeyTree.key, KeyTree.children]

theorem keyTree_succ : ∀ {d : ℕ} {a : Addr} {t : KeyTree K},
    keyTree nodes d a = some t → keyTree nodes (d + 1) a = some t := by
  intro d
  induction d with
  | zero => exact fun h => nomatch h
  | succ d ih =>
      intro a t h
      rw [keyTree_succ_iff] at h ⊢
      refine ⟨h.1, ?_⟩
      rw [← h.2]
      refine List.map_congr_left fun x hx => ?_
      have hmem : keyTree nodes d x ∈ t.children.map some := by
        rw [← h.2]
        exact List.mem_map_of_mem hx
      obtain ⟨u, -, hu⟩ := List.mem_map.mp hmem
      rw [← hu, ih hu.symm]

theorem keyTree_of_le {d' : ℕ} (h : keyTree nodes d a = some t) (hle : d ≤ d') :
    keyTree nodes d' a = some t := by
  induction hle with
  | refl => exact h
  | step _ ih => exact keyTree_succ ih

theorem keyTree_frame {P : Addr → Prop} (hkey : ∀ a, P a → keyOf nodes' a = keyOf nodes a)
    (hkids : ∀ a, P a → childrenOf nodes' a = childrenOf nodes a)
    (hclosed : ∀ a, P a → ∀ x ∈ childrenOf nodes a, P x) :
    ∀ (d : ℕ) (a : Addr), P a → keyTree nodes' d a = keyTree nodes d a := by
  intro d
  induction d with
  | zero => exact fun _ _ => rfl
  | succ d ih =>
      intro a ha
      have hmap : (childrenOf nodes a).map (keyTree nodes' d) =
          (childrenOf nodes a).map (keyTree nodes d) :=
        List.map_congr_left fun x hx => ih x (hclosed a ha x hx)
      refine Option.ext fun t => ?_
      rw [keyTree_succ_iff, keyTree_succ_iff, hkey a ha, hkids a ha, hmap]

/-! ## Searches -/

section Search

variable {target : Addr → Prop} {target' : K → Prop}

theorem exists_holds_iff {l : List Addr}
    (hone : ∀ a t, keyTree nodes d a = some t →
      (Holds nodes target d a ↔ ∃ k ∈ t.keys, target' k))
    (h : l.map (keyTree nodes d) = ts.map some) :
    (∃ a ∈ l, Holds nodes target d a) ↔ ∃ k ∈ KeyTree.allKeys ts, target' k := by
  induction l generalizing ts with
  | nil =>
      obtain rfl : ts = [] := by simpa using h.symm
      simp [KeyTree.allKeys]
  | cons a l ih =>
      cases ts with
      | nil => cases h
      | cons t ts =>
          rw [List.map_cons, List.map_cons, List.cons_eq_cons] at h
          simp only [KeyTree.allKeys, List.exists_mem_cons_iff, List.mem_append, or_and_right,
            exists_or, hone a t h.1, ih h.2]

theorem holds_iff_keys (htarget : ∀ b k, keyOf nodes b = some k → (target b ↔ target' k)) :
    ∀ (d : ℕ) (a : Addr) (t : KeyTree K), keyTree nodes d a = some t →
      (Holds nodes target d a ↔ ∃ k ∈ t.keys, target' k) := by
  intro d
  induction d with
  | zero => exact fun _ _ h => nomatch h
  | succ d ih =>
      intro a t h
      obtain ⟨hkey, hkids⟩ := keyTree_succ_iff.mp h
      rw [holds_succ_iff, htarget a _ hkey, exists_holds_iff ih hkids]
      obtain ⟨k, ts⟩ := t
      rw [KeyTree.keys, List.exists_mem_cons_iff]
      rfl

theorem getElem?_of_keyTrees {l : List Addr} {i : ℕ}
    (h : l.map (keyTree nodes d) = ts.map some) (hi : l[i]? = some a) :
    ∃ t, ts[i]? = some t ∧ keyTree nodes d a = some t := by
  have hmap : (ts[i]?).map some = some (keyTree nodes d a) := by
    rw [← List.getElem?_map, ← h, List.getElem?_map, hi]
    rfl
  obtain ⟨t, ht, htree⟩ := Option.map_eq_some_iff.mp hmap
  exact ⟨t, ht, htree.symm⟩

theorem losesNone_iff_keys {l : List Addr} {i : ℕ}
    (htarget : ∀ b k, keyOf nodes b = some k → (target b ↔ target' k))
    (h : l.map (keyTree nodes d) = ts.map some) (hi : l[i]? = some a) :
    LosesNone nodes target d l a ↔ KeyTree.ChoiceLosesNone target' ts i := by
  obtain ⟨t, ht, htree⟩ := getElem?_of_keyTrees h hi
  have hone := holds_iff_keys htarget d
  rw [LosesNone, KeyTree.ChoiceLosesNone, exists_holds_iff hone h, hone a t htree, ht]
  simp [KeyTree.allKeys]

end Search

/-! ## Reading the keys -/

theorem keyOf_of_keyTree (h : keyTree nodes d a = some t) : keyOf nodes a = some t.key := by
  cases d with
  | zero => cases h
  | succ d => exact (keyTree_succ_iff.mp h).1

theorem forall₂_keyTree {l : List Addr} (h : l.map (keyTree nodes d) = ts.map some) :
    List.Forall₂ (fun a t => keyTree nodes d a = some t) l ts := by
  rwa [← List.forall₂_eq_eq_eq, List.forall₂_map_left_iff, List.forall₂_map_right_iff] at h

theorem map_keyOf {l : List Addr} (h : l.map (keyTree nodes d) = ts.map some) :
    l.mapM (keyOf nodes) = some (ts.map KeyTree.key) := by
  rw [mapM_eq_some_iff, List.map_map, ← List.forall₂_eq_eq_eq, List.forall₂_map_left_iff,
    List.forall₂_map_right_iff]
  exact (forall₂_keyTree h).imp fun a t => keyOf_of_keyTree

theorem findChildOf_eq (n : BinomialTreeNode K V) : findChildOf cmp side nodes n =
    (n.children.mapM (keyOf nodes)).map (selectIndex (childReplaces cmp side)) := by
  cases side with
  | max =>
      show findChild _ nodes n = _
      rw [findChild]
      cases n.children.mapM (keyOf nodes) <;> rfl
  | min =>
      show findChild _ nodes n = _
      rw [findChild]
      cases n.children.mapM (keyOf nodes) <;> rfl

/-- The way down from a node, by its keys. -/
theorem pathLosesNone_iff_keys {target : Addr → Prop} {target' : K → Prop}
    (hord : Ordered c mode nodes trees)
    (htarget : ∀ b k, keyOf nodes b = some k → (target b ↔ target' k)) :
    ∀ {d : ℕ} {a : Addr} {t : KeyTree K}, keyTree nodes d a = some t →
      (PathLosesNone nodes target (chosenChild c.cmp side nodes) d a ↔
        t.PathLosesNone (selectIndex (childReplaces c.cmp side)) target') := by
  intro d
  induction d with
  | zero => exact fun h => nomatch h
  | succ d ih =>
      intro a t h
      obtain ⟨hkey, hkids⟩ := keyTree_succ_iff.mp h
      obtain ⟨n, hn, -⟩ := Option.map_eq_some_iff.mp hkey
      obtain ⟨k, ts⟩ := t
      change (childrenOf nodes a).map (keyTree nodes d) = ts.map some at hkids
      rw [childrenOf_eq hn] at hkids
      have hkeys := map_keyOf hkids
      have hfind : findChildOf c.cmp side nodes n =
          some (selectIndex (childReplaces c.cmp side) (ts.map KeyTree.key)) := by
        rw [findChildOf_eq, hkeys, Option.map_some]
      rw [PathLosesNone, KeyTree.PathLosesNone, childrenOf_eq hn]
      by_cases hnil : n.children = []
      · have hnone : findChildOf c.cmp side nodes n = some none := findChildOf_nil c.cmp side hnil
        have hchoice : selectIndex (childReplaces c.cmp side) (ts.map KeyTree.key) = none :=
          Option.some.inj (hfind.symm.trans hnone)
        have hchild : chosenChild c.cmp side nodes a = none := by simp [chosenChild, hn, hnone]
        rw [hchild, hchoice]
      · obtain ⟨i, x, hi, hx, -⟩ := findChildOf_dominates c side (hord.children_live hn) hnil
        have hchoice : selectIndex (childReplaces c.cmp side) (ts.map KeyTree.key) = some i :=
          Option.some.inj (hfind.symm.trans hi)
        have hchild : chosenChild c.cmp side nodes a = some x := by
          simp [chosenChild, hn, hi, hx]
        obtain ⟨u, hu, htree⟩ := getElem?_of_keyTrees hkids hx
        rw [hchild, hchoice]
        dsimp only
        rw [losesNone_iff_keys htarget hkids hx, ih htree, KeyTree.pathLosesNoneAt_iff hu]

/-- The trees have keys. -/
theorem Consistent.exists_keyForest (h : Consistent c bh) : ∃ ts, keyForest bh = some ts := by
  obtain ⟨rank, hrank, hcard⟩ := h.ordered.forest.exists_rank_lt
  have hmain : ∀ (d : ℕ) (a : Addr), a ∈ bh.nodes.live → rank a < d →
      (keyTree bh.nodes d a).isSome := by
    intro d
    induction d with
    | zero => exact fun _ _ hlt => absurd hlt (Nat.not_lt_zero _)
    | succ d ih =>
        intro a ha hlt
        obtain ⟨n, hn⟩ := Heap.exists_of_mem_live ha
        obtain ⟨ts, hts, -⟩ := mapM_of_isSome (f := keyTree bh.nodes d) (l := childrenOf bh.nodes a)
          fun x hx => ih x (h.ordered.forest.mem_of_kid ha hx) (by
            have hx' := hrank a ha x hx
            omega)
        simp [keyTree, keyOf_eq hn, hts]
  obtain ⟨ts, hts, -⟩ := mapM_of_isSome (f := keyTree bh.nodes bh.nodes.brk) fun a ha =>
    hmain bh.nodes.brk a (h.ordered.trees_live a ha)
      (Nat.lt_of_lt_of_le (hcard a (h.ordered.trees_live a ha)) bh.nodes.card_live_le_brk)
  exact ⟨ts, hts⟩

theorem mem_allKeys_iff (h : Consistent c bh) (hts : keyForest bh = some ts) (k : K) :
    k ∈ KeyTree.allKeys ts ↔ ∃ b ∈ bh.nodes.live, keyOf bh.nodes b = some k := by
  have hone : ∀ a t, keyTree bh.nodes bh.nodes.brk a = some t →
      (Holds bh.nodes (fun b => keyOf bh.nodes b = some k) bh.nodes.brk a ↔
        ∃ l ∈ t.keys, l = k) :=
    holds_iff_keys (fun b l hl => by rw [hl, Option.some_inj]) bh.nodes.brk
  have hall := exists_holds_iff hone (mapM_eq_some_iff.mp hts)
  have hperm := flatMap_subtree_perm h.ordered.forest
  constructor
  · intro hk
    obtain ⟨a, ha, b, hb, hkey⟩ := hall.mpr ⟨k, hk, rfl⟩
    have hmem := hperm.mem_iff.mp (List.mem_flatMap.mpr ⟨a, ha, hb⟩)
    exact ⟨b, Finset.mem_toList.mp hmem, hkey⟩
  · rintro ⟨b, hb, hkey⟩
    obtain ⟨a, ha, hb⟩ := List.mem_flatMap.mp (hperm.mem_iff.mpr (Finset.mem_toList.mpr hb))
    obtain ⟨l, hl, rfl⟩ := hall.mp ⟨a, ha, b, hb, hkey⟩
    exact hl

theorem extreme_iff_foremost (h : Consistent c bh) (hts : keyForest bh = some ts) {k : K}
    (hk : keyOf bh.nodes a = some k) :
    Extreme c.cmp side bh.nodes a ↔ Foremost c.cmp side ts k := by
  constructor
  · intro hext l hl
    obtain ⟨b, hb, hkey⟩ := (mem_allKeys_iff h hts l).mp hl
    exact hext b hb k l hk hkey
  · intro hfore b hb k' l hk' hl
    rw [hk] at hk'
    cases hk'
    exact hfore l ((mem_allKeys_iff h hts l).mpr ⟨b, hb, hl⟩)

/-- What the search at the other end of a heap loses is told by its keys. -/
theorem oppositeLosesNone_iff_keys (h : Consistent c bh) (hts : keyForest bh = some ts) :
    OppositeLosesNone c.cmp bh ↔ ForestLosesNone c.cmp (opposite bh.mode) ts := by
  have hmap := mapM_eq_some_iff.mp hts
  have htarget : ∀ b k, keyOf bh.nodes b = some k →
      (Extreme c.cmp (opposite bh.mode) bh.nodes b ↔ Foremost c.cmp (opposite bh.mode) ts k) :=
    fun b k hk => extreme_iff_foremost h hts hk
  have hroots : binheapMaxmin c.cmp bh (opposite bh.mode) =
      some (selectIndex (rootReplaces c.cmp (opposite bh.mode)) (ts.map KeyTree.key)) := by
    rw [binheapMaxmin, map_keyOf hmap]
    rfl
  rw [OppositeLosesNone, ForestLosesNone, KeyTree.SearchLosesNone]
  by_cases hnil : bh.trees = []
  · have hnone := binheapMaxmin_nil bh c.cmp (opposite bh.mode) hnil
    have hchosen : chosenRoot c.cmp (opposite bh.mode) bh = none := by simp [chosenRoot, hnone]
    rw [hchosen, Option.some.inj (hroots.symm.trans hnone)]
    rfl
  · obtain ⟨i, r, hi, hr, -⟩ :=
      binheapMaxmin_dominates c bh (opposite bh.mode) h.ordered.trees_live hnil
    have hchosen : chosenRoot c.cmp (opposite bh.mode) bh = some r := by
      simp [chosenRoot, hi, hr]
    obtain ⟨u, hu, htree⟩ := getElem?_of_keyTrees hmap hr
    rw [hchosen, Option.some.inj (hroots.symm.trans hi)]
    dsimp only [SearchLosesNone]
    rw [losesNone_iff_keys htarget hmap hr, pathLosesNone_iff_keys h.ordered htarget htree,
      KeyTree.pathLosesNoneAt_iff hu]

/-- A deletion at the other end takes a foremost item if the search loses nothing. -/
theorem deleteExtremum_opposite (h : Consistent c bh) (hts : keyForest bh = some ts) :
    ∃ bh' o, deleteExtremum c.cmp bh (opposite bh.mode) = some (bh', o) ∧ Consistent c bh' ∧
      bh'.mode = bh.mode ∧ ((o = (-1, none) ∧ contents bh = 0 ∧ contents bh' = 0) ∨
        Removes (fun i => ForestLosesNone c.cmp (opposite bh.mode) ts →
          IsExtremum c (opposite bh.mode) (contents bh) i) (contents bh) o (contents bh')) := by
  obtain ⟨⟨node, i⟩, hget, hfinds⟩ := getExtremum_finds c h.ordered h.headTop (opposite bh.mode)
  obtain ⟨bh', o, hrun, h', hmode, hbag⟩ := deleteExtremum_of_finds h hget hfinds
  refine ⟨bh', o, hrun, h', hmode, hbag.imp_right (Removes.imp ?_)⟩
  rintro j ⟨a, n, rfl, hn, rfl⟩ hkeys
  have hloses := (oppositeLosesNone_iff_keys h hts).mpr hkeys
  exact isExtremum_of_above ((getExtremum_losesNone_iff h hget).mp hloses) hn

/-! ## Insertion -/

/-- A tree has the keys of the tree under a node. -/
def Shows (nodes : Heap (BinomialTreeNode K V)) (t : KeyTree K) (a : Addr) : Prop :=
  ∃ d, keyTree nodes d a = some t

theorem Shows.unique (h : Shows nodes t a) (h' : Shows nodes u a) : t = u := by
  obtain ⟨d, hd⟩ := h
  obtain ⟨e, he⟩ := h'
  have hmax := keyTree_of_le hd (Nat.le_max_left d e)
  rw [keyTree_of_le he (Nat.le_max_right d e)] at hmax
  exact (Option.some.inj hmax).symm

theorem Shows.length_children (h : Shows nodes t a) :
    (childrenOf nodes a).length = t.children.length := by
  obtain ⟨d, hd⟩ := h
  cases d with
  | zero => cases hd
  | succ d =>
      have hlen := congrArg List.length (keyTree_succ_iff.mp hd).2
      rwa [List.length_map, List.length_map] at hlen

theorem Shows.keyOf_eq (h : Shows nodes t a) : keyOf nodes a = some t.key := by
  obtain ⟨d, hd⟩ := h
  exact keyOf_of_keyTree hd

theorem forall₂_shows {l : List Addr} (h : l.map (keyTree nodes d) = ts.map some) :
    List.Forall₂ (Shows nodes) ts l :=
  (forall₂_keyTree h).flip.imp fun _ _ ht => ⟨d, ht⟩

theorem eq_of_forall₂_shows {l : List Addr} (h : List.Forall₂ (Shows nodes) ts l)
    (h' : List.Forall₂ (Shows nodes) us l) : ts = us := by
  have hunique : Relator.LeftUnique (Shows nodes) := fun _ _ _ ht hu => ht.unique hu
  exact hunique.forall₂ h h'

theorem Shows.frame {P : Addr → Prop} (h : Shows nodes t a) (ha : P a)
    (hkey : ∀ a, P a → keyOf nodes' a = keyOf nodes a)
    (hkids : ∀ a, P a → childrenOf nodes' a = childrenOf nodes a)
    (hclosed : ∀ a, P a → ∀ x ∈ childrenOf nodes a, P x) : Shows nodes' t a := by
  obtain ⟨d, hd⟩ := h
  exact ⟨d, by rw [keyTree_frame hkey hkids hclosed d a ha, hd]⟩

/-- The trees of the other nodes stay as they are when a root adopts one. -/
theorem Shows.other (h : Shows nodes t a) (hord : Ordered c mode nodes trees) (hp : p ∈ trees)
    (had : Adopts nodes nodes' p [r]) (hlive : a ∈ nodes.live) (ha : a ≠ p) :
    Shows nodes' t a := by
  refine h.frame (P := fun x => x ∈ nodes.live ∧ x ≠ p) ⟨hlive, ha⟩
    (fun x _ => had.same.keyOf_eq x) (fun x hx => had.childrenOther x hx.2) ?_
  rintro x ⟨hx, -⟩ y hy
  exact ⟨hord.forest.mem_of_kid hx hy, hord.forest.kid_ne_root hx hy hp⟩

theorem Shows.adopt (ht : Shows nodes t p) (hu : Shows nodes u r)
    (hord : Ordered c mode nodes trees) (hp : p ∈ trees) (hr : r ∈ trees) (hne : r ≠ p)
    (had : Adopts nodes nodes' p [r]) : Shows nodes' (t.adopt u) p := by
  obtain ⟨d, hd⟩ := ht
  obtain ⟨e, he⟩ := hu
  have hkids := (keyTree_succ_iff.mp (keyTree_succ hd)).2
  have hframe : ∀ (k : ℕ) (x : Addr), x ∈ nodes.live ∧ x ≠ p →
      keyTree nodes' k x = keyTree nodes k x := by
    refine keyTree_frame (fun x _ => had.same.keyOf_eq x)
      (fun x hx => had.childrenOther x hx.2) ?_
    rintro x ⟨hx, -⟩ y hy
    exact ⟨hord.forest.mem_of_kid hx hy, hord.forest.kid_ne_root hx hy hp⟩
  have hplive := hord.trees_live p hp
  refine ⟨max d e + 1, keyTree_succ_iff.mpr ⟨?_, ?_⟩⟩
  · rw [had.same.keyOf_eq, keyOf_of_keyTree hd, KeyTree.key_adopt]
  · have hrest : (childrenOf nodes p).map (keyTree nodes' (max d e)) = t.children.map some := by
      rw [← hkids]
      refine List.map_congr_left fun x hx => ?_
      rw [hframe _ x ⟨hord.forest.mem_of_kid hplive hx, hord.forest.kid_ne_root hplive hx hp⟩]
      have hmem : keyTree nodes d x ∈ t.children.map some := by
        rw [← hkids]
        exact List.mem_map_of_mem hx
      obtain ⟨v, -, hv⟩ := List.mem_map.mp hmem
      rw [← hv, keyTree_of_le hv.symm (Nat.le_max_left d e)]
    have hlast : keyTree nodes' (max d e) r = some u := by
      rw [hframe _ r ⟨hord.trees_live r hr, hne⟩]
      exact keyTree_of_le he (Nat.le_max_right d e)
    rw [had.children, List.map_append, hrest, List.map_singleton, hlast, KeyTree.adopt,
      KeyTree.children, List.map_append, List.map_singleton]

theorem forall₂_imp_of_mem {α β : Type} {R S : α → β → Prop} {xs : List α} {ys : List β}
    (h : List.Forall₂ R xs ys) (himp : ∀ x, ∀ y ∈ ys, R x y → S x y) : List.Forall₂ S xs ys := by
  induction h with
  | nil => exact .nil
  | cons head _ ih =>
      exact .cons (himp _ _ List.mem_cons_self head)
        (ih fun x y hy => himp x y (List.mem_cons_of_mem _ hy))

/-- The merging loop, seen by the keys: the tree reached and the trees to come are still to
be added up. -/
def ShowsInsert (cmp : K → K → ℤ) (mode : BinheapMode) (ts : List (KeyTree K)) (order : ℕ)
    (nodes : Heap (BinomialTreeNode K V)) (node : Addr) (trees : List Addr) : Prop :=
  ∃ t us, Shows nodes t node ∧ List.Forall₂ (Shows nodes) us trees ∧
    t.children.length = order ∧ KeyTree.insert (HasPrecedence cmp mode) t us = ts

theorem ShowsInsert.link {order : ℕ} {node tree : Addr}
    (hord : Ordered c mode nodes (node :: tree :: trees))
    (h : ShowsInsert c.cmp mode ts order nodes node (tree :: trees))
    (horder : (childrenOf nodes tree).length = order)
    (hpr : (p = node ∧ r = tree) ∨ (p = tree ∧ r = node))
    (hwins : p = node ↔ Above c.cmp mode nodes node tree) (had : Adopts nodes nodes' p [r]) :
    ShowsInsert c.cmp mode ts (order + 1) nodes' p trees := by
  obtain ⟨t, us, ht, hus, hlen, hinsert⟩ := h
  cases hus with
  | @cons u _ us _ hu hus =>
      have hnode : node ∈ node :: tree :: trees := List.mem_cons_self
      have htree : tree ∈ node :: tree :: trees := List.mem_cons_of_mem _ List.mem_cons_self
      have hnodup := hord.forest.rootsNodup
      have hne : node ≠ tree := by
        rintro rfl
        exact (List.nodup_cons.mp hnodup).1 List.mem_cons_self
      have hprec : HasPrecedence c.cmp mode t.key u.key ↔ p = node := by
        rw [hwins]
        constructor
        · intro hprec k l hk hl
          rw [ht.keyOf_eq] at hk
          rw [hu.keyOf_eq] at hl
          cases hk
          cases hl
          exact hprec
        · exact fun habove => habove _ _ ht.keyOf_eq hu.keyOf_eq
      have hp : p ∈ node :: tree :: trees := by
        rcases hpr with ⟨rfl, -⟩ | ⟨rfl, -⟩
        · exact hnode
        · exact htree
      have hrest : List.Forall₂ (Shows nodes') us trees := by
        refine forall₂_imp_of_mem hus fun v x hx hv => ?_
        have hmem := List.mem_cons_of_mem node (List.mem_cons_of_mem tree hx)
        refine hv.other hord hp had (hord.trees_live x hmem) ?_
        rintro rfl
        rw [List.nodup_cons, List.nodup_cons] at hnodup
        rcases hpr with ⟨rfl, -⟩ | ⟨rfl, -⟩
        · exact hnodup.1 (List.mem_cons_of_mem _ hx)
        · exact hnodup.2.1 hx
      have hu' : u.children.length = t.children.length := by
        rw [← hu.length_children, horder, hlen]
      rw [KeyTree.insert, if_pos hu'] at hinsert
      rcases hpr with ⟨rfl, rfl⟩ | ⟨rfl, rfl⟩
      · rw [if_pos (hprec.mpr rfl)] at hinsert
        refine ⟨t.adopt u, us, ht.adopt hu hord hnode htree hne.symm had, hrest, ?_,
          hinsert⟩
        rw [KeyTree.length_children_adopt, hlen]
      · rw [if_neg (mt hprec.mp hne.symm)] at hinsert
        refine ⟨u.adopt t, us, hu.adopt ht hord htree hnode hne had, hrest, ?_,
          hinsert⟩
        rw [KeyTree.length_children_adopt, hu', hlen]

/-- An insertion adds a tree with one key to the trees. -/
theorem binheapInsert_keyForest (h : Consistent c bh) (k : K) (v : V)
    (hts : keyForest bh = some ts) :
    ∃ bh', binheapInsert c.cmp bh k v = some (bh', 0) ∧ Consistent c bh' ∧
      bh'.mode = bh.mode ∧ contents bh' = (k, v) ::ₘ contents bh ∧
      keyForest bh' = some (KeyTree.insert (HasPrecedence c.cmp bh.mode) (.node k []) ts) := by
  obtain ⟨bh', node', trees', hrun, h', hmode, hbag, hmerge, htrees⟩ := binheapInsert_merges h k v
  have hstart : ShowsInsert c.cmp bh.mode
      (KeyTree.insert (HasPrecedence c.cmp bh.mode) (.node k []) ts) 0
      (bh.nodes.alloc { key := k, value := v, parent := none, children := [] }).1 bh.nodes.brk
      bh.trees := by
    have hold : ∀ x, x ∈ bh.nodes.live → (bh.nodes.alloc
        { key := k, value := v, parent := none, children := [] }).1 x = bh.nodes x := by
      intro x hx
      rw [Heap.alloc_apply, if_neg]
      rintro rfl
      exact bh.nodes.brk_notMem_live hx
    refine ⟨.node k [], ts, ⟨1, ?_⟩, ?_, rfl, rfl⟩
    · simp [keyTree, keyOf, childrenOf, Heap.alloc_apply]
    · refine forall₂_imp_of_mem (forall₂_shows (mapM_eq_some_iff.mp hts)) fun t x hx ht => ?_
      refine ht.frame (P := fun x => x ∈ bh.nodes.live) (h.ordered.trees_live x hx) ?_ ?_
        fun x hx y hy => h.ordered.forest.mem_of_kid hx hy
      · exact fun x hx => by rw [keyOf, keyOf, hold x hx]
      · exact fun x hx => by rw [childrenOf, childrenOf, hold x hx]
  obtain ⟨nodes'', node'', trees'', order, hmerge', -, -, ⟨t, us, ht, hus, hlen, hinsert⟩, hhead⟩ :=
    mergeTrees_rule (ShowsInsert c.cmp bh.mode _) ShowsInsert.link bh.trees bh.nodes.brk 0 _
      (ordered_alloc h.ordered k v) hstart
  rw [hmerge] at hmerge'
  cases hmerge'
  obtain ⟨ts', hts'⟩ := h'.exists_keyForest
  refine ⟨bh', hrun, h', hmode, hbag, ?_⟩
  have hshown := forall₂_shows (mapM_eq_some_iff.mp hts')
  rw [htrees] at hshown
  rw [hts', eq_of_forall₂_shows hshown (.cons ht hus), ← hinsert, KeyTree.insert_of_ne]
  intro u hu
  cases hus with
  | nil => cases hu
  | cons hx _ =>
      cases hu
      rw [← hx.length_children, hlen]
      exact hhead _ rfl

end BinHeap
end LibHL
