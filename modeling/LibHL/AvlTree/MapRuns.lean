import LibHL.AvlTree.RemovedKey

/-!
# Runs of the AVL tree as runs of a map

An addition that tears an inner subtree apart leaves a tree that is out of order, so the
additions that do not are exactly those after which the tree can stand for a map.  Removals
always agree with the map.  Keys that the comparator calls equal are one key, and the value
that was stored first stays.
-/

namespace LibHL
namespace AvlTree

open PTree AvltData

variable {K V : Type} {c : Comparator K} {key : K} {value : Option V} {new : Addr}

/-! ## Which additions keep the order -/

section Inserted

variable {t t' : PTree (AvltData K V)} {fs fs' : List (Frame (AvltData K V))}

theorem keepsWhole_join_of_toward {s : Side} {u : PTree (AvltData K V)} {x : Addr}
    {d : AvltData K V} (hkey : Toward s (c.cmp key d.key)) :
    KeepsWhole c.cmp key (join s t u x d) ↔ InnerWhole c.cmp key s t (spot c.cmp s key t) ∧
      (spot c.cmp s key t = .descend → KeepsWhole c.cmp key t) := by
  refine keepsWhole_join (ne_zero_of_toward hkey) ?_
  cases s with
  | left => exact if_pos hkey
  | right => exact if_neg (not_lt.mpr (le_of_lt hkey))

/-- A key that went between a node and its child leaves the order alone only if the inner
subtree of the child is on one side of it. -/
theorem Inserted.keepsWhole (h : Inserted c.cmp key value new t fs t' fs')
    (hord : Ordered c AvltData.key (plug t' fs')) : KeepsWhole c.cmp key t := by
  induction h with
  | descend hkey hspot h ih =>
      refine (keepsWhole_join_of_toward hkey).mpr ⟨?_, fun _ => ih hord⟩
      rw [hspot]
      trivial
  | attach hkey =>
      exact (keepsWhole_join_of_toward hkey).mpr ⟨trivial, nofun⟩
  | @above s inner out u a x e d fs hkey hchild hspot =>
      refine (keepsWhole_join_of_toward hkey).mpr ⟨?_, fun hdown => ?_⟩
      · rw [hspot, InnerWhole, sub_join]
        intro y hy
        have hbelow : y ∈ (join s.other inner out a e).values := mem_values_join.mpr (Or.inl hy)
        obtain ⟨-, -, haround⟩ := (ordered_plug _ _).mp hord
        obtain ⟨⟨hnew, -⟩, -⟩ := around_cons.mp (haround y hbelow)
        rwa [key_setH] at hnew
      · cases hspot.symm.trans hdown
  | @between s inner out u a x e d fs hkey hchild hspot =>
      refine (keepsWhole_join_of_toward hkey).mpr ⟨?_, fun hdown => ?_⟩
      · rw [hspot, InnerWhole, sub_join]
        intro y hy
        obtain ⟨-, ⟨-, hsibling, -⟩, -⟩ := (ordered_plug _ (_ :: _)).mp hord
        have hnew := hsibling y hy
        rwa [key_setH, key_setH] at hnew
      · cases hspot.symm.trans hdown

/-- A key that is taken to be present leaves everything whole. -/
theorem keepsWhole_of_insertAt_eq_none (cmp : K → K → ℤ) (T : PTree (AvltData K V)) :
    ∀ fs : List (Frame (AvltData K V)), insertAt cmp key value new T fs = none →
      KeepsWhole cmp key T := by
  induction T using PTree.induct_sides with
  | hleaf => exact fun _ _ => trivial
  | hjoin l x d r ih =>
      intro fs h
      by_cases hc : cmp key d.key = 0
      · rw [KeepsWhole, if_pos hc]
        trivial
      generalize hs : sideFor (cmp key d.key) = s
      obtain ⟨t, u, heq⟩ := node_eq_join l x d r s
      have iht := ih s t u heq
      rw [heq] at h ⊢
      rw [insertAt_join hc hs] at h
      rw [keepsWhole_join hc hs]
      cases hspot : spot cmp s key t with
      | descend =>
          rw [hspot] at h
          exact ⟨trivial, fun _ => iht _ h⟩
      | present => exact ⟨trivial, fun hdescend => by cases hdescend⟩
      | attach =>
          rw [hspot] at h
          cases h
      | splice moved =>
          rw [hspot] at h
          cases h

end Inserted

/-! ## What no call changes -/

section Callback

variable {tree tree' : Avlt K V} {node : Addr} {cmp : K → K → ℤ}

theorem lower_freeValueCb {s : Side} {next : Option Addr}
    (h : lower s tree node = some (tree', next)) : tree'.freeValueCb = tree.freeValueCb := by
  obtain ⟨nodes₁, -, h⟩ := Option.bind_eq_some_iff.mp h
  obtain ⟨nodes₂, -, h⟩ := Option.bind_eq_some_iff.mp h
  obtain ⟨n, -, h⟩ := Option.bind_eq_some_iff.mp h
  cases h
  rfl

theorem balanceRound_freeValueCb {next : Option Addr}
    (h : balanceRound tree node = some (tree', next)) : tree'.freeValueCb = tree.freeValueCb := by
  obtain ⟨nodes₁, -, h⟩ := Option.bind_eq_some_iff.mp h
  obtain ⟨nodes₂, -, h⟩ := Option.bind_eq_some_iff.mp h
  obtain ⟨n, -, h⟩ := Option.bind_eq_some_iff.mp h
  dsimp only at h
  split at h
  · exact (lower_freeValueCb h).trans rfl
  · split at h
    · exact (lower_freeValueCb h).trans rfl
    · cases h
      rfl

theorem balanceLoop_freeValueCb : ∀ (fuel : ℕ) (tree : Avlt K V) (next : Option Addr),
    balanceLoop fuel tree next = some tree' → tree'.freeValueCb = tree.freeValueCb
  | fuel, tree, none, h => by
      rw [balanceLoop] at h
      cases h
      rfl
  | 0, tree, some a, h => by cases h
  | fuel + 1, tree, some a, h => by
      obtain ⟨r, hround, hloop⟩ := Option.bind_eq_some_iff.mp h
      exact (balanceLoop_freeValueCb fuel r.1 r.2 hloop).trans (balanceRound_freeValueCb hround)

theorem avltAdd_freeValueCb {rc : ℤ} (h : avltAdd cmp tree key value = some (tree', rc)) :
    tree'.freeValueCb = tree.freeValueCb := by
  rw [avltAdd] at h
  split at h
  · cases h
    rfl
  · obtain ⟨r, -, h⟩ := Option.bind_eq_some_iff.mp h
    cases r with
    | none =>
        cases h
        rfl
    | some p =>
        obtain ⟨tree₁, hbalance, h⟩ := Option.bind_eq_some_iff.mp h
        cases h
        exact (balanceLoop_freeValueCb _ _ _ hbalance).trans rfl

theorem unlink_freeValueCb (h : unlink tree node = some tree') :
    tree'.freeValueCb = tree.freeValueCb := by
  obtain ⟨n, -, h⟩ := Option.bind_eq_some_iff.mp h
  split at h
  · split at h
    · obtain ⟨nodes₁, -, h⟩ := Option.bind_eq_some_iff.mp h
      obtain ⟨nodes₂, -, h⟩ := Option.bind_eq_some_iff.mp h
      exact (balanceLoop_freeValueCb _ _ _ h).trans rfl
    · obtain ⟨nodes₁, -, h⟩ := Option.bind_eq_some_iff.mp h
      cases h
      rfl
  · cases h
    rfl

theorem avltRemove_freeValueCb {wantsValue : Bool} {result : RemoveResult V}
    (h : avltRemove cmp tree key wantsValue = some (tree', result)) :
    tree'.freeValueCb = tree.freeValueCb := by
  obtain ⟨found, -, h⟩ := Option.bind_eq_some_iff.mp h
  cases found with
  | none =>
      cases h
      rfl
  | some cur =>
      obtain ⟨taken, -, h⟩ := Option.bind_eq_some_iff.mp h
      cases taken with
      | none =>
          cases h
          rfl
      | some p =>
          obtain ⟨tree₁, hunlink, h⟩ := Option.bind_eq_some_iff.mp h
          obtain ⟨n, -, h⟩ := Option.bind_eq_some_iff.mp h
          obtain ⟨nodes, -, h⟩ := Option.bind_eq_some_iff.mp h
          cases h
          exact (unlink_freeValueCb hunlink).trans rfl

end Callback

/-! ## The map -/

/-- What is stored under every key. -/
abbrev Contents (K V : Type) := K → Option (Option V)

/-- What a removal answers. -/
def refRemoved (freeValueCb wantsValue : Bool) : Option (Option V) → RemoveResult V
  | none => ⟨0, none, none⟩
  | some value => handOver freeValueCb wantsValue value

/-- A call on the map.  An addition does not touch a key that is there. -/
def refStep (c : Comparator K) (freeValueCb : Bool) (m : Contents K V) :
    AvltOp K V → Contents K V × AvltAnswer V
  | .add key value =>
      if (m key).isSome then (m, .added (-1))
      else (fun k => if c.cmp key k = 0 then some value else m k, .added 0)
  | .remove key wantsValue =>
      (fun k => if c.cmp key k = 0 then none else m k,
        .removed (refRemoved freeValueCb wantsValue (m key)))

/-- A balanced search tree that stores what the map does. -/
def Stores (c : Comparator K) (freeValueCb : Bool) (tree : Avlt K V) (m : Contents K V) : Prop :=
  tree.freeValueCb = freeValueCb ∧ ∃ T, AvlShape tree T ∧ Ordered c AvltData.key T ∧
    ∀ key, (lookup c Prod.fst (entries T) key).map Prod.snd = m key

/-- The call tears no inner subtree apart. -/
def OpInOrder (cmp : K → K → ℤ) (tree : Avlt K V) : AvltOp K V → Prop
  | .add key value => AddsInOrder cmp tree (key, value)
  | .remove _ _ => True

instance (cmp : K → K → ℤ) (tree : Avlt K V) (op : AvltOp K V) :
    Decidable (OpInOrder cmp tree op) := by
  cases op with
  | add key value => exact inferInstanceAs (Decidable (AddsInOrder cmp tree (key, value)))
  | remove key wantsValue => exact isTrue trivial

theorem stores_avltCreate (c : Comparator K) (freeValueCb : Bool) :
    Stores c freeValueCb (avltCreate freeValueCb : Avlt K V) fun _ => none :=
  ⟨rfl, .leaf, avlShape_of_represents (represents_avltCreate freeValueCb) trivial,
    ordered_leaf _ _, fun _ => rfl⟩

section Calls

variable {tree tree' : Avlt K V} {T T' : PTree (AvltData K V)} {freeValueCb : Bool}
  {m : Contents K V}

theorem AvlShape.unique (h : AvlShape tree T) (h' : AvlShape tree T') : T = T' :=
  Option.some.inj (h.treeOf_eq.symm.trans h'.treeOf_eq)

theorem addsInOrder_iff {cmp : K → K → ℤ} (h : AvlShape tree T) :
    AddsInOrder cmp tree (key, value) ↔ KeepsWhole cmp key T := by
  rw [AddsInOrder, h.treeOf_eq, Option.all_some, decide_eq_true_eq]

/-- A tree with one entry more, if it is in order, stores the map with that entry. -/
theorem stores_of_perm_cons (hord : Ordered c AvltData.key T)
    (hm : ∀ key, (lookup c Prod.fst (entries T) key).map Prod.snd = m key)
    (hcb : tree'.freeValueCb = freeValueCb) (h' : AvlShape tree' T')
    (hord' : Ordered c AvltData.key T') (hperm : (entries T').Perm ((key, value) :: entries T)) :
    refStep c freeValueCb m (.add key value) =
        (fun k => if c.cmp key k = 0 then some value else m k, .added 0) ∧
      Stores c freeValueCb tree' fun k => if c.cmp key k = 0 then some value else m k := by
  have hasc : Ascending c Prod.fst (entries T) := ordered_iff_entries.mp hord
  have hasc' : Ascending c Prod.fst (entries T') := ordered_iff_entries.mp hord'
  have habsent : m key = none := by
    rw [← hm, Option.map_eq_none_iff, lookup_eq_none]
    intro e he hzero
    obtain ⟨A, B, hAB⟩ := List.append_of_mem (hperm.symm.subset List.mem_cons_self)
    rw [hAB] at hasc' hperm
    have hrest : e ∈ A ++ B :=
      ((List.perm_cons _).mp (List.perm_middle.symm.trans hperm)).symm.subset he
    exact ne_of_ascending hasc' (List.mem_append.mp hrest) hzero
  refine ⟨?_, hcb, T', h', hord', fun k => ?_⟩
  · rw [refStep, habsent]
    rfl
  · rw [lookup_of_perm_cons hasc hasc' hperm]
    by_cases hk : c.cmp key k = 0
    · rw [if_pos hk]
      exact (if_pos hk).symm
    · rw [if_neg hk, hm]
      exact (if_neg hk).symm

theorem perm_entries_of_bag (hbag : T'.bag entry = {(key, value)} + T.bag entry) :
    (entries T').Perm ((key, value) :: entries T) :=
  Multiset.coe_eq_coe.mp (hbag.trans (Multiset.singleton_add _ _))

theorem Stores.add_iff (h : Stores c freeValueCb tree m) (key : K) (value : Option V) :
    OpInOrder c.cmp tree (.add key value) ↔
      ∃ tree', stepOp c.cmp tree (.add key value) =
          some (tree', (refStep c freeValueCb m (.add key value)).2) ∧
        Stores c freeValueCb tree' (refStep c freeValueCb m (.add key value)).1 := by
  have hstores := h
  obtain ⟨hcb, T, h, hord, hm⟩ := h
  rw [OpInOrder, addsInOrder_iff h]
  by_cases hT : T = .leaf
  · subst hT
    refine iff_of_true trivial ?_
    obtain ⟨tree', hrun, hrep⟩ := avltAdd_leaf c.cmp h.represents key value
    have hleaf : Balanced (.node .leaf tree.nodes.brk ⟨key, value, 0, 0⟩ .leaf) :=
      ⟨trivial, trivial, rfl, rfl, Nat.zero_le _, Nat.zero_le _⟩
    obtain ⟨href, hnew⟩ := stores_of_perm_cons hord hm ((avltAdd_freeValueCb hrun).trans hcb)
      (avlShape_of_represents hrep hleaf) (List.pairwise_singleton _ _) (List.Perm.refl _)
    refine ⟨tree', ?_, ?_⟩
    · rw [stepOp, hrun, href]
      rfl
    · rw [href]
      exact hnew
  rcases avltAdd_node c.cmp h.represents h.balanced hT key value with
    ⟨hnone, hrun⟩ | ⟨t, fs, tree', T', hins, hrun, hrep, hbal, hentries⟩
  · refine iff_of_true (keepsWhole_of_insertAt_eq_none c.cmp T [] hnone) ⟨tree, ?_, ?_⟩
    all_goals
      have hpresent : (m key).isSome := by
        obtain ⟨y, hy, hzero⟩ := exists_of_insertAt_eq_none c.cmp T [] hT hnone
        rw [← hm, Option.isSome_map, Option.isSome_iff_ne_none, ne_eq, lookup_eq_none]
        intro habsent
        refine habsent y.entry (List.mem_map_of_mem hy) ?_
        exact hzero.elim id fun hzero => c.zero_comm.mp hzero
      rw [refStep, if_pos hpresent]
    · rw [stepOp, hrun]
      rfl
    · exact hstores
  · have hshape := avlShape_of_represents hrep hbal
    have hordered : Ordered c AvltData.key T' ↔ KeepsWhole c.cmp key T := by
      rw [ordered_iff_entries, hentries, ← ordered_iff_entries]
      exact ⟨fun hord' => hins.keepsWhole hord', fun hwhole =>
        hins.ordered hord (fun _ hmem => absurd hmem List.not_mem_nil) hwhole⟩
    rw [← hordered]
    constructor
    · intro hord'
      have hperm : (entries T').Perm ((key, value) :: entries T) := by
        rw [hentries]
        exact perm_entries_of_bag hins.bag_eq
      obtain ⟨href, hnew⟩ := stores_of_perm_cons hord hm ((avltAdd_freeValueCb hrun).trans hcb)
        hshape hord' hperm
      refine ⟨tree', ?_, ?_⟩
      · rw [stepOp, hrun, href]
        rfl
      · rw [href]
        exact hnew
    · rintro ⟨tree₂, hstep, -, T₂, h₂, hord₂, -⟩
      rw [stepOp, hrun] at hstep
      obtain rfl : tree' = tree₂ := congrArg Prod.fst (Option.some.inj hstep)
      rwa [hshape.unique h₂]

theorem Stores.remove (h : Stores c freeValueCb tree m) (key : K) (wantsValue : Bool) :
    ∃ tree', stepOp c.cmp tree (.remove key wantsValue) =
        some (tree', (refStep c freeValueCb m (.remove key wantsValue)).2) ∧
      Stores c freeValueCb tree' (refStep c freeValueCb m (.remove key wantsValue)).1 := by
  obtain ⟨hcb, T, h, hord, hm⟩ := h
  rcases findAt_of_ordered hord key with
    ⟨hfind, hlookup⟩ | ⟨l, x, d, r, fs, hfind, hzero, hlookup⟩
  · have habsent : m key = none := by
      rw [← hm, hlookup]
      rfl
    refine ⟨tree, ?_, hcb, T, h, hord, fun k => ?_⟩
    · rw [stepOp, avltRemove_absent c.cmp key h.represents hfind wantsValue, refStep, habsent]
      rfl
    · by_cases hk : c.cmp key k = 0
      · have hnone : lookup c Prod.fst (entries T) k = none := by
          refine lookup_eq_none.mpr fun e he hek => lookup_eq_none.mp hlookup e he ?_
          exact c.zero_trans hek (c.zero_comm.mp hk)
        rw [hnone]
        exact (if_pos hk).symm
      · rw [hm]
        exact (if_neg hk).symm
  · obtain ⟨tree', T', hrun, hrep, hbal, hwithout⟩ :=
      avltRemove_present c.cmp key h.represents h.balanced hfind wantsValue
    obtain ⟨hord', hentries⟩ := entriesBut_of_without hord hzero hwithout
    have hcb' := (avltRemove_freeValueCb hrun).trans hcb
    refine ⟨tree', ?_, hcb', T', avlShape_of_represents hrep hbal, hord', fun k => ?_⟩
    · rw [stepOp, hrun, refStep, ← hm, hlookup, hcb']
      rfl
    · rw [hentries, entriesBut, lookup_filter, refStep]
      by_cases hk : c.cmp key k = 0
      · rw [if_pos hk]
        exact (if_pos hk).symm
      · rw [if_neg hk, hm]
        exact (if_neg hk).symm

/-- Exactly the calls that tear nothing apart have the answer of the map and leave a search
tree. -/
theorem stepOp_stores_iff (tree : Avlt K V) (m : Contents K V) (op : AvltOp K V)
    (h : Stores c freeValueCb tree m) :
    OpInOrder c.cmp tree op ↔
      ∃ tree', stepOp c.cmp tree op = some (tree', (refStep c freeValueCb m op).2) ∧
        Stores c freeValueCb tree' (refStep c freeValueCb m op).1 := by
  cases op with
  | add key value => exact h.add_iff key value
  | remove key wantsValue => exact iff_of_true trivial (h.remove key wantsValue)

end Calls

/-! ## Runs -/

/-- A run is that of a map, with a balanced search tree after every call, exactly if no
addition tears an inner subtree apart. -/
theorem run_maps_iff (c : Comparator K) (freeValueCb : Bool) (ops : List (AvltOp K V)) :
    RunsAs (stepOp c.cmp) (refStep c freeValueCb) (Stores c freeValueCb)
        (avltCreate freeValueCb) (fun _ => none) ops ↔
      StepsMeet (stepOp c.cmp) (OpInOrder c.cmp) (avltCreate freeValueCb) ops :=
  runsAs_iff_stepsMeet (fun tree m op h => stepOp_stores_iff tree m op h) ops _ _
    (stores_avltCreate c freeValueCb)

/-- The last addition puts its key above the whole of a subtree that it divides. -/
example : ¬ StepsMeet (stepOp natComparator.cmp) (OpInOrder natComparator.cmp)
    (avltCreate true : Avlt ℕ ℕ) ([0, 1, 2, 5, 6, 7, 4, 3].map fun k => .add k (some k)) := by
  decide

end AvlTree
end LibHL
