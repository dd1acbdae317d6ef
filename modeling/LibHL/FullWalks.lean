import LibHL.AvlTree.WalkVisits
import LibHL.RbTree.WalkVisits

/-!
# Walks from end to end

With a callback that always continues, every walk of either tree comes to an end after one
call for every node, and returns how many there were: the sorted walks in the order of the
keys, `rbt_walk` in preorder, `avlt_walk` level by level.  The count is an `int`, so this is
about trees with fewer than 2^31 nodes.
-/

namespace LibHL
namespace FullWalks

open PTree

/-! ## What the walks are for -/

section Purpose

variable {E K σ : Type}

/-- The callback asks neither to stop nor to delete. -/
def Continues (cb : σ → E → σ × ℤ) : Prop :=
  ∀ u e, (cb u e).2 ≠ 0 ∧ (cb u e).2 ≠ -1 ∧ (cb u e).2 ≠ -2

/-- The keys are strictly ascending. -/
def Ascending {W : Type} (cmp : K → K → ℤ) (calls : List (K × W)) : Prop :=
  calls.Pairwise fun d e => cmp d.1 e.1 < 0

/-- A walk of a tree with the entries `es` called the callback once for each of them, in the
order that is asked for, and returned their number. -/
structure VisitsAll (es : List E) (order : List E → Prop) (calls : List E) (count : ℤ) : Prop where
  once : calls.Perm es
  order : order calls
  count : count = es.length

end Purpose

section Walks

variable {K V W σ τ : Type}

/-- `rbt_walk_sorted` and `rbt_walk` do what they are for. -/
def RbtWalksAll (cmp : List UInt8 → List UInt8 → ℤ) (mem : Bool)
    (cb : σ → List UInt8 × ℕ × Option V → σ × ℤ) (rbt : Rbt V) (T : PTree (RbtData V))
    (user : σ) : Prop :=
  (∃ s r, RbTree.rbtWalkSorted cmp mem cb rbt user = some (s, r) ∧
    VisitsAll (T.values.map RbtData.entry) (Ascending cmp) (s.calls.map Prod.fst) r) ∧
  ∃ s r, RbTree.rbtWalk cmp mem cb rbt user = some (s, r) ∧
    VisitsAll (T.values.map RbtData.entry)
      (fun calls => calls = (places false T).map fun p => p.data.entry) (s.calls.map Prod.fst) r

/-- `avlt_walk_sorted` and `avlt_walk` do what they are for. -/
def AvltWalksAll (cmp : K → K → ℤ) (cb : σ → K × Option V → σ × ℤ)
    (links : Addr → TailqEntry Unit Addr) (avlt : Avlt K V) (T : PTree (AvltData K V))
    (user : σ) : Prop :=
  (∃ fuel s r, AvlTree.avltWalkSorted cmp cb fuel avlt user = some (s, r) ∧
    VisitsAll (AvlTree.entries T) (Ascending cmp) (s.calls.map AvlTree.Call.entry) r) ∧
  ∃ fuel s r, AvlTree.avltWalk cmp cb links fuel avlt user = some (s, r) ∧
    VisitsAll (AvlTree.entries T)
      (fun calls => calls = (levelOrder [T]).map AvltData.entry) (s.calls.map AvlTree.Call.entry) r

/-! ## The red-black tree -/

theorem walkTree_visits (cmp : List UInt8 → List UInt8 → ℤ) (mem sorted : Bool)
    {cb : σ → List UInt8 × ℕ × Option V → σ × ℤ} {rbt : Rbt V} {T : PTree (RbtData V)} (user : σ)
    (h : RbTree.Represents rbt T) (hgo : Continues cb) (hsize : T.size < 2 ^ 31) :
    ∃ s r, RbTree.walkTree cmp mem cb sorted rbt user = some (s, r) ∧
      VisitsAll (T.values.map RbtData.entry)
        (fun calls => calls = (places sorted T).map fun p => p.data.entry)
        (s.calls.map Prod.fst) r := by
  obtain ⟨s, -, hcalls, hleads⟩ := RbTree.walkTree_of_neverAsks cmp mem sorted user h
    fun u e _ => hgo u e
  rcases hleads with hrun | ⟨-, hlarge⟩
  · refine ⟨s, T.size, hrun, ?_, hcalls, ?_⟩
    · rw [hcalls]
      exact RbTree.perm_entries_places sorted T
    · rw [List.length_map, length_values]
  · exact absurd hsize (Nat.not_lt.mpr hlarge)

theorem rbtWalksAll_of_small (c : Comparator (List UInt8)) (mem : Bool)
    {cb : σ → List UInt8 × ℕ × Option V → σ × ℤ} {rbt : Rbt V} {T : PTree (RbtData V)} (user : σ)
    (h : RbTree.Represents rbt T) (hord : Ordered c RbtData.key T) (hgo : Continues cb)
    (hsize : T.size < 2 ^ 31) : RbtWalksAll c.cmp mem cb rbt T user := by
  refine ⟨?_, walkTree_visits c.cmp mem false user h hgo hsize⟩
  obtain ⟨s, r, hrun, honce, hplaces, hcount⟩ := walkTree_visits c.cmp mem true user h hgo hsize
  refine ⟨s, r, hrun, honce, ?_, hcount⟩
  have hcalls : s.calls.map Prod.fst = T.values.map RbtData.entry :=
    hplaces.trans (RbTree.entries_places T)
  rw [hcalls]
  exact List.pairwise_map.mpr hord

/-! ## The AVL tree -/

theorem avltWalksAll_of_small (c : Comparator K) {cb : τ → K × Option V → τ × ℤ}
    (links : Addr → TailqEntry Unit Addr) {avlt : Avlt K V} {T : PTree (AvltData K V)} (user : τ)
    (h : AvlTree.Represents avlt T) (hord : Ordered c AvltData.key T) (hgo : Continues cb)
    (hsize : T.size < 2 ^ 31) : AvltWalksAll c.cmp cb links avlt T user := by
  have hentries : AvlTree.GoesOn cb (AvlTree.entries T) := fun u e _ => hgo u e
  have hlength : (AvlTree.entries T).length = T.size :=
    (List.length_map _).trans (length_values T)
  constructor
  · refine ⟨T.height, _, _, AvlTree.avltWalkSorted_of_represents c.cmp h hsize hentries user, ?_⟩
    rw [AvlTree.entries_callAll, AvlTree.map_fst_located]
    exact ⟨List.Perm.refl _, List.pairwise_map.mpr hord, congrArg Int.ofNat hlength.symm⟩
  · refine ⟨T.size + 1, _, _, AvlTree.avltWalk_of_represents c.cmp links h hsize hentries user, ?_⟩
    rw [AvlTree.entries_callAll, List.map_map]
    exact ⟨AvlTree.perm_entries_levelOrder T, rfl, congrArg Int.ofNat hlength.symm⟩

/-- All four walks of trees whose nodes an `int` can count. -/
theorem walks_visit_all (c : Comparator (List UInt8)) (d : Comparator K) (mem : Bool)
    (rbtCb : σ → List UInt8 × ℕ × Option V → σ × ℤ) (avltCb : τ → K × Option W → τ × ℤ)
    (links : Addr → TailqEntry Unit Addr) (rbt : Rbt V) (avlt : Avlt K W)
    (R : PTree (RbtData V)) (A : PTree (AvltData K W)) (rbtUser : σ) (avltUser : τ)
    (hrbt : RbTree.Represents rbt R) (hR : Ordered c RbtData.key R) (hrbtCb : Continues rbtCb)
    (hRsize : R.size < 2 ^ 31) (havlt : AvlTree.Represents avlt A)
    (hA : Ordered d AvltData.key A) (havltCb : Continues avltCb) (hAsize : A.size < 2 ^ 31) :
    RbtWalksAll c.cmp mem rbtCb rbt R rbtUser ∧
      AvltWalksAll d.cmp avltCb links avlt A avltUser :=
  ⟨rbtWalksAll_of_small c mem rbtUser hrbt hR hrbtCb hRsize,
    avltWalksAll_of_small d links avltUser havlt hA havltCb hAsize⟩

/-- A callback that counts its calls. -/
def counting {E : Type} (count : ℕ) (_ : E) : ℕ × ℤ := (count + 1, 1)

theorem continues_counting (E : Type) : Continues (counting (E := E)) := by
  intro u e
  show (1 : ℤ) ≠ 0 ∧ (1 : ℤ) ≠ -1 ∧ (1 : ℤ) ≠ -2
  decide

end Walks

/-! ## More nodes than an `int` counts -/

/-- The keys from `lo` on, in a tree with `n` full levels; each key is its own address. -/
def perfect : ℕ → ℕ → PTree (AvltData ℕ ℕ)
  | 0, _ => .leaf
  | n + 1, lo =>
      .node (perfect n lo) (lo + (2 ^ n - 1)) ⟨lo + (2 ^ n - 1), none, n, n⟩ (perfect n (lo + 2 ^ n))

theorem range'_perfect (n lo : ℕ) : List.range' lo (2 ^ (n + 1) - 1) =
    List.range' lo (2 ^ n - 1) ++ (lo + (2 ^ n - 1)) :: List.range' (lo + 2 ^ n) (2 ^ n - 1) := by
  obtain ⟨m, hm⟩ := Nat.exists_eq_succ_of_ne_zero (Nat.two_pow_pos n).ne'
  have hlen : 2 ^ (n + 1) - 1 = m + (m + 1) := by
    rw [pow_succ, hm]
    omega
  rw [hlen, ← List.range'_append_1, List.range'_succ, hm]
  rfl

theorem keys_perfect (n : ℕ) : ∀ lo, (perfect n lo).values.map AvltData.key =
    List.range' lo (2 ^ n - 1) := by
  induction n with
  | zero => exact fun _ => rfl
  | succ n ih =>
      intro lo
      rw [perfect, values, List.map_append, List.map_cons, ih, ih, range'_perfect]

theorem addresses_perfect (n : ℕ) : ∀ lo p, ((perfect n lo).cells p).map Prod.fst =
    List.range' lo (2 ^ n - 1) := by
  induction n with
  | zero => exact fun _ _ => rfl
  | succ n ih =>
      intro lo p
      rw [perfect, cells, Multiset.map_add, Multiset.map_add, Multiset.map_singleton, ih, ih,
        range'_perfect, ← Multiset.coe_add, ← Multiset.cons_coe, ← Multiset.singleton_add]
      exact add_left_comm _ _ _

theorem height_perfect (n : ℕ) : ∀ lo, (perfect n lo).height = n := by
  induction n with
  | zero => exact fun _ => rfl
  | succ n ih =>
      intro lo
      rw [perfect, height, ih, ih, max_self]

theorem balanced_perfect (n : ℕ) : ∀ lo, AvlTree.Balanced (perfect n lo) := by
  induction n with
  | zero => exact fun _ => trivial
  | succ n ih =>
      intro lo
      refine ⟨ih _, ih _, ?_, ?_, ?_, ?_⟩
      · rw [height_perfect]
      · rw [height_perfect]
      · rw [height_perfect, height_perfect]
        exact Nat.le_succ n
      · rw [height_perfect, height_perfect]
        exact Nat.le_succ n

theorem ordered_perfect (n lo : ℕ) :
    Ordered natComparator.toComparator AvltData.key (perfect n lo) := by
  have hkeys : ((perfect n lo).values.map AvltData.key).Pairwise (· < ·) := by
    rw [keys_perfect]
    exact List.pairwise_lt_range'
  refine (List.pairwise_map.mp hkeys).imp ?_
  intro d e hlt
  exact Int.sub_neg_of_lt (Int.ofNat_lt.mpr hlt)

theorem size_perfect (n lo : ℕ) : (perfect n lo).size = 2 ^ n - 1 := by
  rw [← length_values, ← List.length_map (f := AvltData.key), keys_perfect, List.length_range']

theorem exists_perfect (n : ℕ) : ∃ avlt : Avlt ℕ ℕ, AvlTree.AvlShape avlt (perfect n 0) := by
  have haddresses := addresses_perfect n 0 none
  have hnodup : (((perfect n 0).cells none).map Prod.fst).Nodup := by
    rw [haddresses]
    exact List.nodup_range'
  have hlt : ∀ c ∈ (perfect n 0).cells none, c.1 < 2 ^ n - 1 := by
    intro c hc
    have hmem := Multiset.mem_map_of_mem Prod.fst hc
    rw [haddresses, Multiset.mem_coe, List.mem_range'_1, zero_add] at hmem
    exact hmem.2
  obtain ⟨nodes, hnodes⟩ := Heap.exists_cells_eq hnodup hlt
  exact ⟨⟨nodes, (perfect n 0).addr, false⟩, hnodes, rfl, balanced_perfect n 0⟩

/-- A tree with three keys and one with seven are walked to their ends. -/
theorem walks_visit_all_seven : ∃ avlt : Avlt ℕ ℕ, AvlTree.Represents avlt (perfect 3 0) ∧
    RbtWalksAll RbTree.lexicographic.cmp true counting RbTree.longNeighbourTree RbTree.longNeighbour 0 ∧
    AvltWalksAll natComparator.cmp counting AvlTree.noLinks avlt (perfect 3 0) 0 := by
  obtain ⟨avlt, havlt⟩ := exists_perfect 3
  refine ⟨avlt, havlt.represents, ?_⟩
  exact walks_visit_all RbTree.lexicographic.toComparator natComparator.toComparator true counting counting
    AvlTree.noLinks RbTree.longNeighbourTree avlt RbTree.longNeighbour (perfect 3 0) 0 0
    RbTree.represents_longNeighbourTree RbTree.ordered_longNeighbour (continues_counting _)
    (by decide) havlt.represents (ordered_perfect 3 0) (continues_counting _) (by decide)

/-- A perfect tree with 32 levels is walked to its end by no walk that returns an `int`. -/
theorem int_is_too_small :
    ¬ ∀ (avlt : Avlt ℕ ℕ) (T : PTree (AvltData ℕ ℕ)) (cb : ℕ → ℕ × Option ℕ → ℕ × ℤ)
        (links : Addr → TailqEntry Unit Addr),
      AvlTree.AvlShape avlt T → Ordered natComparator.toComparator AvltData.key T →
      Continues cb → AvltWalksAll natComparator.cmp cb links avlt T 0 := by
  intro hall
  obtain ⟨avlt, havlt⟩ := exists_perfect 32
  obtain ⟨-, fuel, s, r, hrun, -, -, hcount⟩ := hall avlt _ counting AvlTree.noLinks havlt
    (ordered_perfect 32 0) (continues_counting _)
  have hsmall := AvlTree.avltWalk_lt hrun
  have hlength : (AvlTree.entries (perfect 32 0)).length = 2 ^ 32 - 1 :=
    (List.length_map _).trans ((length_values _).trans (size_perfect 32 0))
  rw [hcount, hlength] at hsmall
  exact absurd hsmall (by decide)

end FullWalks
end LibHL
