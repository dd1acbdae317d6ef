import LibHL.AvlTree.Runs

/-!
# The order of the keys

A new node between a node and its child takes the whole inner subtree of the child, or
leaves the whole of it, depending on the root of that subtree alone.  The tree stays
ordered if the inner subtree is on one side of the new key, and otherwise it does not.
-/

namespace LibHL
namespace AvlTree

open PTree AvltData

variable {K V : Type}

/-! ## Additions that keep the order -/

section Whole

variable (cmp : K → K → ℤ) (key : K)

/-- All keys of a tree compare towards a side with `key`. -/
def AllToward (s : Side) (t : PTree (AvltData K V)) : Prop :=
  ∀ d ∈ t.values, Toward s (cmp d.key key)

instance (s : Side) (t : PTree (AvltData K V)) : Decidable (AllToward cmp key s t) :=
  inferInstanceAs (Decidable (∀ d ∈ t.values, Toward s (cmp d.key key)))

/-- If a node is put above `near`, then the inner subtree lies on one side of the key. -/
def InnerWhole (s : Side) (near : PTree (AvltData K V)) : Spot → Prop
  | .splice moved => AllToward cmp key (if moved then s.other else s) (near.sub s.other)
  | _ => True

instance (s : Side) (near : PTree (AvltData K V)) :
    ∀ p, Decidable (InnerWhole cmp key s near p)
  | .splice _ => inferInstanceAs (Decidable (AllToward _ _ _ _))
  | .descend => isTrue trivial
  | .attach => isTrue trivial
  | .present => isTrue trivial

/-- The same for the node that the search for the place ends at. -/
def KeepsWhole : PTree (AvltData K V) → Prop
  | .leaf => True
  | .node l _ d r =>
      if cmp key d.key = 0 then True
      else if cmp key d.key < 0 then
        InnerWhole cmp key .left l (spot cmp .left key l) ∧
          (spot cmp .left key l = .descend → KeepsWhole l)
      else
        InnerWhole cmp key .right r (spot cmp .right key r) ∧
          (spot cmp .right key r = .descend → KeepsWhole r)

instance decidableKeepsWhole : ∀ t : PTree (AvltData K V), Decidable (KeepsWhole cmp key t)
  | .leaf => isTrue trivial
  | .node l _ d r =>
      have := decidableKeepsWhole l
      have := decidableKeepsWhole r
      inferInstanceAs (Decidable (if cmp key d.key = 0 then True
        else if cmp key d.key < 0 then
          InnerWhole cmp key .left l (spot cmp .left key l) ∧
            (spot cmp .left key l = .descend → KeepsWhole cmp key l)
        else
          InnerWhole cmp key .right r (spot cmp .right key r) ∧
            (spot cmp .right key r = .descend → KeepsWhole cmp key r)))

variable {cmp key} {s : Side} {t u : PTree (AvltData K V)} {x : Addr} {d : AvltData K V}

theorem keepsWhole_join (hc : cmp key d.key ≠ 0) (hs : sideFor (cmp key d.key) = s) :
    KeepsWhole cmp key (join s t u x d) ↔ InnerWhole cmp key s t (spot cmp s key t) ∧
      (spot cmp s key t = .descend → KeepsWhole cmp key t) := by
  rw [sideFor] at hs
  by_cases hneg : cmp key d.key < 0
  · rw [if_pos hneg] at hs
    subst hs
    rw [join, KeepsWhole, if_neg hc, if_pos hneg]
  · rw [if_neg hneg] at hs
    subst hs
    rw [join, KeepsWhole, if_neg hc, if_neg hneg]

theorem keepsWhole_of_toward (hkey : Toward s (cmp key d.key))
    (h : KeepsWhole cmp key (join s t u x d)) :
    InnerWhole cmp key s t (spot cmp s key t) ∧
      (spot cmp s key t = .descend → KeepsWhole cmp key t) := by
  refine (keepsWhole_join ?_ ?_).mp h
  · intro hzero
    rw [hzero] at hkey
    exact not_toward_zero s hkey
  · cases s
    · exact if_pos hkey
    · exact if_neg (not_lt.mpr (le_of_lt hkey))

end Whole

/-- A key is taken to be present if it is the key of the child or of the root of the inner
subtree. -/
theorem exists_of_spot_eq_present {cmp : K → K → ℤ} {key : K} {s : Side}
    {inner out : PTree (AvltData K V)} {a : Addr} {e : AvltData K V}
    (h : spot cmp s key (join s.other inner out a e) = .present) :
    ∃ y ∈ (join s.other inner out a e).values, cmp y.key key = 0 := by
  rw [spot_join] at h
  by_cases hout : Toward s.other (cmp e.key key)
  · rw [if_pos hout] at h
    cases h
  rw [if_neg hout] at h
  by_cases hin : Toward s (cmp e.key key) ∧ compareRoot cmp key inner ≠ some 0
  · rw [if_pos hin] at h
    cases h
  by_cases he : cmp e.key key = 0
  · exact ⟨e, mem_values_join.mpr (Or.inr (Or.inl rfl)), he⟩
  have htoward : Toward s (cmp e.key key) := by
    have h := toward_or s.other he hout
    rw [Side.other_other] at h
    exact h
  have hroot : compareRoot cmp key inner = some 0 := by
    by_contra hne
    exact hin ⟨htoward, hne⟩
  cases inner with
  | leaf => cases hroot
  | node l b d r =>
      refine ⟨d, mem_values_join.mpr (Or.inl ?_), Option.some.inj hroot⟩
      exact (mem_values_join (s := .left)).mpr (Or.inr (Or.inl rfl))

/-! ## The order after an addition -/

section Inserted

variable {c : Comparator K} {key : K} {value : Option V} {new : Addr}
  {t t' : PTree (AvltData K V)} {fs fs' : List (Frame (AvltData K V))}

theorem key_setH (d : AvltData K V) (s : Side) (v : ℤ) : (d.setH s v).key = d.key := by
  cases s <;> rfl

/-- A subtree lies on one side of the key if its inner part and its root do. -/
theorem allToward_join {s : Side} {inner out : PTree (AvltData K V)} {a : Addr}
    {e : AvltData K V} (hord : Ordered c AvltData.key (join s.other inner out a e))
    (hinner : AllToward c.cmp key s inner) (he : Toward s (c.cmp e.key key)) :
    AllToward c.cmp key s (join s.other inner out a e) := by
  obtain ⟨-, -, -, hout⟩ := (ordered_join c AvltData.key).mp hord
  rw [Side.other_other] at hout
  intro y hy
  rcases mem_values_join.mp hy with hy | rfl | hy
  · exact hinner y hy
  · exact he
  · exact c.toward_trans (hout y hy) he

/-- The keys of the tree stay in order if the inner subtree is on one side of the key. -/
theorem Inserted.ordered (h : Inserted c.cmp key value new t fs t' fs')
    (hord : Ordered c AvltData.key (plug t fs)) (hkeyfs : Around c AvltData.key key fs)
    (hwhole : KeepsWhole c.cmp key t) : Ordered c AvltData.key (plug t' fs') := by
  induction h with
  | descend hkey hspot h ih =>
      obtain ⟨-, hdeep⟩ := keepsWhole_of_toward hkey hwhole
      exact ih hord (around_down hord hkeyfs hkey) (hdeep hspot)
  | @attach s u x d fs hkey =>
      have hdown := around_down hord hkeyfs hkey
      obtain ⟨-, ⟨hu, hux, hx, hus, hfs⟩, -⟩ :=
        (ordered_plug _ (⟨s, x, d, u⟩ :: fs)).mp hord
      rw [← key_setH d s (d.h s + 1)] at hux hx
      refine (ordered_plug _ (⟨s, x, d.setH s (d.h s + 1), u⟩ :: fs)).mpr
        ⟨?_, ⟨hu, hux, hx, hus, hfs⟩, ?_⟩
      · exact (ordered_join c AvltData.key (s := .left)).mpr
          ⟨List.Pairwise.nil, List.Pairwise.nil, nofun, nofun⟩
      · intro y hy
        obtain rfl := List.mem_singleton.mp hy
        refine around_cons.mpr ?_
        rw [key_setH]
        exact around_cons.mp hdown
  | @above s inner out u a x e d fs hkey hchild hspot =>
      have hdown := around_down hord hkeyfs hkey
      obtain ⟨hnear, hfs, haround⟩ := (ordered_plug _ (⟨s, x, d, u⟩ :: fs)).mp hord
      obtain ⟨hinner, -⟩ := keepsWhole_of_toward hkey hwhole
      rw [hspot] at hinner
      have hall : AllToward c.cmp key s inner := by
        rw [← sub_join s.other inner out a e]
        exact hinner
      have hside := allToward_join hnear hall hchild
      refine (ordered_plug _ (⟨s, new, _, .leaf⟩ :: ⟨s, x, d, u⟩ :: fs)).mpr
        ⟨hnear, ⟨ordered_leaf _ _, nofun, ?_, nofun, hfs⟩, ?_⟩
      · rw [key_setH]
        exact hdown
      · intro y hy
        refine around_cons.mpr ⟨⟨?_, nofun⟩, haround y hy⟩
        rw [key_setH]
        exact hside y hy
  | @between s inner out u a x e d fs hkey hchild hspot =>
      have hdown := around_down hord hkeyfs hkey
      obtain ⟨hnear, hfs, haround⟩ := (ordered_plug _ (⟨s, x, d, u⟩ :: fs)).mp hord
      obtain ⟨hinner, -⟩ := keepsWhole_of_toward hkey hwhole
      rw [hspot] at hinner
      have hall : AllToward c.cmp key s.other inner := by
        rw [← sub_join s.other inner out a e]
        exact hinner
      obtain ⟨hi, ho, hie, hoe⟩ := (ordered_join c AvltData.key).mp hnear
      have hcut : Ordered c AvltData.key (join s.other .leaf out a (e.setH s.other 0)) := by
        refine (ordered_join c AvltData.key).mpr ⟨ordered_leaf _ _, ho, nofun, ?_⟩
        rw [key_setH]
        exact hoe
      have hside : AllToward c.cmp key s (join s.other .leaf out a (e.setH s.other 0)) := by
        refine allToward_join hcut nofun ?_
        rw [key_setH]
        exact hchild
      refine (ordered_plug _ (⟨s, new, _, inner⟩ :: ⟨s, x, d, u⟩ :: fs)).mpr
        ⟨hcut, ⟨hi, ?_, ?_, ?_, hfs⟩, ?_⟩
      · rw [key_setH, key_setH]
        exact hall
      · rw [key_setH, key_setH]
        exact hdown
      · intro y hy
        exact haround y (mem_values_join.mpr (Or.inl hy))
      · intro y hy
        have hy' := hside y hy
        refine around_cons.mpr ⟨⟨?_, ?_⟩, ?_⟩
        · rw [key_setH, key_setH]
          exact hy'
        · intro z hz
          exact c.toward_trans hy' (c.toward_dual.mpr (hall z hz))
        · rcases mem_values_join.mp hy with hy | rfl | hy
          · exact absurd hy (List.not_mem_nil)
          · rw [key_setH]
            exact haround e (mem_values_join.mpr (Or.inr (Or.inl rfl)))
          · exact haround y (mem_values_join.mpr (Or.inr (Or.inr hy)))

theorem Inserted.bag_eq {cmp : K → K → ℤ} (h : Inserted cmp key value new t fs t' fs') :
    (plug t' fs').bag entry = {(key, value)} + (plug t fs).bag entry := by
  induction h with
  | descend hkey hspot h ih => exact ih
  | attach hkey =>
      rw [bag_plug, bag_plug, bag_join, bag_join, entry_setH, bag_leaf]
      show {_} + ({(key, value)} + _) + _ = _
      abel
  | above hkey hchild hspot =>
      rw [bag_plug, bag_plug, frameBag, frameBag, bag_join _ _ _ _ _ _, entry_setH, bag_leaf,
        bag_join _ _ (join _ _ _ _ _)]
      show _ + ({(key, value)} + _) = _
      rw [bag_join]
      abel
  | between hkey hchild hspot =>
      rw [bag_plug, bag_plug, frameBag, frameBag, bag_join, entry_setH, entry_setH, entry_setH,
        bag_leaf, bag_join _ _ (join _ _ _ _ _), bag_join]
      show _ + ({(key, value)} + _) = _
      abel

/-- Nodes of an ordered tree have different keys, in whatever order they are listed. -/
theorem cmp_ne_of_ordered {T : PTree (AvltData K V)} (h : Ordered c AvltData.key T)
    {e : K × Option V} {s : Multiset (K × Option V)} (hs : T.bag entry = {e} + s) :
    ∀ b ∈ s, c.cmp e.1 b.1 ≠ 0 := by
  obtain ⟨l, rfl⟩ := Quot.exists_rep s
  have hpair : (T.values.map entry).Pairwise fun a b => c.cmp a.1 b.1 ≠ 0 :=
    List.pairwise_map.mpr (h.imp fun hlt => ne_of_lt hlt)
  have hperm : (T.values.map entry).Perm (e :: l) := Multiset.coe_eq_coe.mp hs
  have hsymm : ∀ {a b : K × Option V}, c.cmp a.1 b.1 ≠ 0 → c.cmp b.1 a.1 ≠ 0 := by
    intro a b hab hba
    have h₁ := (c.dual b.1 a.1).mp (ge_of_eq hba)
    have h₂ := (c.dual a.1 b.1).mpr (le_of_eq hba)
    exact hab (le_antisymm h₁ h₂)
  have hcons := (hperm.pairwise_iff hsymm).mp hpair
  exact (List.pairwise_cons.mp hcons).1

/-- A key that is taken to be present is present. -/
theorem exists_of_insertAt_eq_none (cmp : K → K → ℤ) (T : PTree (AvltData K V)) :
    ∀ fs : List (Frame (AvltData K V)), T ≠ .leaf →
      insertAt cmp key value new T fs = none →
      ∃ y ∈ T.values, cmp y.key key = 0 ∨ cmp key y.key = 0 := by
  induction T using PTree.induct_sides with
  | hleaf => exact fun _ h => absurd rfl h
  | hjoin l x d r ih =>
      intro fs _ h
      by_cases hc : cmp key d.key = 0
      · refine ⟨d, ?_, Or.inr hc⟩
        exact (mem_values_join (s := .left)).mpr (Or.inr (Or.inl rfl))
      generalize hs : sideFor (cmp key d.key) = s
      obtain ⟨t, u, heq⟩ := node_eq_join l x d r s
      have iht := ih s t u heq
      rw [heq] at h ⊢
      rw [insertAt_join hc hs] at h
      cases t with
      | leaf => cases h
      | node tl a e tr =>
          obtain ⟨inner, out, heq'⟩ := node_eq_join tl a e tr s.other
          have hne : PTree.node tl a e tr ≠ .leaf := nofun
          rw [heq'] at h iht hne ⊢
          have hin : ∀ y ∈ (join s.other inner out a e).values,
              y ∈ (join s (join s.other inner out a e) u x d).values :=
            fun y hy => mem_values_join.mpr (Or.inl hy)
          cases hspot : spot cmp s key (join s.other inner out a e) with
          | descend =>
              rw [hspot] at h
              obtain ⟨y, hy, heq⟩ := iht _ hne h
              exact ⟨y, hin y hy, heq⟩
          | attach => exact absurd hspot (spot_join_ne_attach inner out a e)
          | splice moved =>
              rw [hspot] at h
              cases h
          | present =>
              obtain ⟨y, hy, heq⟩ := exists_of_spot_eq_present hspot
              exact ⟨y, hin y hy, Or.inl heq⟩

end Inserted

/-! ## Runs of additions -/

/-- Perform an addition. -/
def addStep (cmp : K → K → ℤ) (tree : Avlt K V) (p : K × Option V) :
    Option (Avlt K V × ℤ) :=
  avltAdd cmp tree p.1 p.2

/-- Pairs whose keys are collected, the first one for each key. -/
def addRef [DecidableEq K] (seen : List (K × Option V)) (p : K × Option V) :
    List (K × Option V) × ℤ :=
  if p.1 ∈ seen.map Prod.fst then (seen, -1) else (p :: seen, 0)

/-- The tree behind the root pointer. -/
def treeOf (tree : Avlt K V) : Option (PTree (AvltData K V)) :=
  readTree tree.nodes tree.nodes.brk tree.root

theorem AvlShape.treeOf_eq {tree : Avlt K V} {T : PTree (AvltData K V)}
    (h : AvlShape tree T) : treeOf tree = some T := by
  have hcells : tree.nodes.cells = T.cells none + 0 := h.cells.trans (add_zero _).symm
  rw [treeOf, h.root]
  exact readTree_of_cells ((height_le_size T).trans (size_le_brk hcells)) hcells

/-- The addition does not tear an inner subtree apart. -/
def AddsInOrder (cmp : K → K → ℤ) (tree : Avlt K V) (p : K × Option V) : Prop :=
  (treeOf tree).all (fun T => KeepsWhole cmp p.1 T) = true

instance (cmp : K → K → ℤ) (tree : Avlt K V) (p : K × Option V) :
    Decidable (AddsInOrder cmp tree p) :=
  inferInstanceAs (Decidable (_ = true))

/-- A balanced search tree with the pairs seen so far. -/
def Holds (c : Comparator K) (tree : Avlt K V) (seen : List (K × Option V)) : Prop :=
  ∃ T, AvlShape tree T ∧ Ordered c AvltData.key T ∧ T.bag entry = ↑seen

theorem avltAdd_eq_neg {cmp : K → K → ℤ} {tree tree' : Avlt K V} {key : K}
    {value : Option V} {rc : ℤ} (h : avltAdd cmp tree key value = some (tree', rc))
    (hrc : rc ≠ 0) : tree' = tree := by
  rw [avltAdd] at h
  cases hroot : tree.root with
  | none =>
      rw [hroot] at h
      cases h
      exact absurd rfl hrc
  | some root =>
      rw [hroot] at h
      obtain ⟨r, -, hr⟩ := Option.bind_eq_some_iff.mp h
      cases r with
      | none =>
          cases hr
          rfl
      | some p =>
          obtain ⟨t, -, ht⟩ := Option.bind_eq_some_iff.mp hr
          cases ht
          exact absurd rfl hrc

theorem mem_keys_of_bag {T : PTree (AvltData K V)} {seen : List (K × Option V)}
    (hbag : T.bag entry = ↑seen) (k : K) :
    k ∈ T.values.map AvltData.key ↔ k ∈ seen.map Prod.fst := by
  have hperm : (T.values.map entry).Perm seen := Multiset.coe_eq_coe.mp hbag
  rw [← (hperm.map Prod.fst).mem_iff, List.map_map]
  rfl

theorem ordered_iff_entries {c : Comparator K} {T : PTree (AvltData K V)} :
    Ordered c AvltData.key T ↔ (entries T).Pairwise fun a b => c.cmp a.1 b.1 < 0 := by
  rw [entries, List.pairwise_map]
  rfl

theorem addStep_refines [DecidableEq K] (c : OrderComparator K) {tree : Avlt K V}
    {seen : List (K × Option V)} (p : K × Option V) (h : Holds c.toComparator tree seen)
    (hok : AddsInOrder c.cmp tree p) :
    ∃ tree', addStep c.cmp tree p = some (tree', (addRef seen p).2) ∧
      Holds c.toComparator tree' (addRef seen p).1 := by
  obtain ⟨key, value⟩ := p
  obtain ⟨T, hshape, hord, hbag⟩ := h
  rw [AddsInOrder, hshape.treeOf_eq] at hok
  have hwhole : KeepsWhole c.cmp key T := of_decide_eq_true hok
  have hrefl : c.cmp key key = 0 :=
    le_antisymm (c.refl key) ((c.dual key key).mpr (c.refl key))
  by_cases hT : T = .leaf
  · subst hT
    obtain rfl : seen = [] := Multiset.coe_eq_zero _ |>.mp hbag.symm
    obtain ⟨tree', hrun, hrep⟩ := avltAdd_leaf c.cmp hshape.represents key value
    refine ⟨tree', hrun, _, avlShape_of_represents hrep ?_, ?_, rfl⟩
    · exact ⟨trivial, trivial, rfl, rfl, Nat.zero_le _, Nat.zero_le _⟩
    · exact List.pairwise_singleton _ _
  · rcases avltAdd_node c.cmp hshape.represents hshape.balanced hT key value with
      ⟨hnone, hrun⟩ | ⟨t, fs, tree', T', hins, hrun, hrep, hbal, hentries⟩
    · have hmem : key ∈ seen.map Prod.fst := by
        obtain ⟨y, hy, heq⟩ := exists_of_insertAt_eq_none c.cmp T [] hT hnone
        have hkey : y.key = key := by
          rcases heq with heq | heq
          · exact c.eq_of_cmp _ _ heq
          · exact (c.eq_of_cmp _ _ heq).symm
        rw [← mem_keys_of_bag hbag, ← hkey]
        exact List.mem_map_of_mem hy
      rw [addRef, if_pos hmem]
      exact ⟨tree, hrun, T, hshape, hord, hbag⟩
    · have hord' : Ordered c.toComparator AvltData.key (plug t fs) :=
        hins.ordered hord nofun hwhole
      have hbag' : (plug t fs).bag entry = {(key, value)} + ↑seen := by
        rw [hins.bag_eq, ← hbag]
        rfl
      have hnot : key ∉ seen.map Prod.fst := by
        intro hmem
        obtain ⟨e, he, heq⟩ := List.mem_map.mp hmem
        refine cmp_ne_of_ordered hord' hbag' e (Multiset.mem_coe.mpr he) ?_
        rw [heq]
        exact hrefl
      rw [addRef, if_neg hnot]
      refine ⟨tree', hrun, T', avlShape_of_represents hrep hbal, ?_, ?_⟩
      · rw [ordered_iff_entries, hentries, ← ordered_iff_entries]
        exact hord'
      · have hcoe : (↑(entries T') : Multiset (K × Option V)) = ↑(entries (plug t fs)) :=
          congrArg _ hentries
        exact hcoe.trans (hbag'.trans (Multiset.singleton_add _ _))

/-- The keys are strictly ascending and are those that were added, an addition answers
zero exactly if its key is not there yet, and otherwise changes nothing. -/
def KeysInOrder [DecidableEq K] (c : OrderComparator K) (freeValueCb : Bool)
    (adds : List (K × Option V)) : Prop :=
  ∃ tree T, runSteps (addStep c.cmp) (avltCreate freeValueCb) adds =
      some (tree, (refRun addRef [] adds).2) ∧ AvlShape tree T ∧
    (T.values.map AvltData.key).Pairwise (fun a b => c.cmp a b < 0) ∧
    (∀ k, k ∈ T.values.map AvltData.key ↔ k ∈ adds.map Prod.fst) ∧
    ∀ p tree' rc, addStep c.cmp tree p = some (tree', rc) → rc ≠ 0 → tree' = tree

theorem mem_refRun_addRef [DecidableEq K] (k : K) : ∀ (adds seen : List (K × Option V)),
    k ∈ (refRun addRef seen adds).1.map Prod.fst ↔
      k ∈ seen.map Prod.fst ∨ k ∈ adds.map Prod.fst := by
  intro adds
  induction adds with
  | nil =>
      intro seen
      simp [refRun]
  | cons p adds ih =>
      intro seen
      rw [refRun, ih, addRef, List.map_cons, List.mem_cons]
      by_cases hp : p.1 ∈ seen.map Prod.fst
      · rw [if_pos hp]
        constructor
        · rintro (hseen | hadds)
          · exact Or.inl hseen
          · exact Or.inr (Or.inr hadds)
        · rintro (hseen | rfl | hadds)
          · exact Or.inl hseen
          · exact Or.inl hp
          · exact Or.inr hadds
      · rw [if_neg hp, List.map_cons, List.mem_cons, or_assoc]
        exact or_left_comm

theorem holds_of_adds [DecidableEq K] (c : OrderComparator K) (freeValueCb : Bool)
    (adds : List (K × Option V))
    (hmeet : StepsMeet (addStep c.cmp) (AddsInOrder c.cmp) (avltCreate freeValueCb) adds) :
    ∃ tree, runSteps (addStep c.cmp) (avltCreate freeValueCb) adds =
        some (tree, (refRun addRef [] adds).2) ∧
      Holds c.toComparator tree (refRun addRef [] adds).1 := by
  have hcreate : Holds c.toComparator (avltCreate freeValueCb : Avlt K V) [] :=
    ⟨.leaf, avlShape_of_represents (represents_avltCreate freeValueCb) trivial,
      ordered_leaf _ _, rfl⟩
  exact runSteps_refines (fun tree seen p h hok => addStep_refines c p h hok) adds _ _ hcreate
    hmeet

/-- In every run whose additions tear no inner subtree apart, the tree is a search tree
with the keys added, and the answers tell which keys were new. -/
theorem adds_keep_order [DecidableEq K] (c : OrderComparator K) (freeValueCb : Bool)
    (adds : List (K × Option V))
    (hmeet : StepsMeet (addStep c.cmp) (AddsInOrder c.cmp) (avltCreate freeValueCb) adds) :
    KeysInOrder c freeValueCb adds := by
  obtain ⟨tree, hrun, T, hshape, hord, hbag⟩ := holds_of_adds c freeValueCb adds hmeet
  refine ⟨tree, T, hrun, hshape, List.pairwise_map.mpr hord, ?_, ?_⟩
  · intro k
    rw [mem_keys_of_bag hbag, mem_refRun_addRef, List.map_nil]
    exact or_iff_right List.not_mem_nil
  · exact fun p tree' rc hstep hrc => avltAdd_eq_neg hstep hrc

/-- Additions of the keys of a list, each with a value of its own. -/
def addsOf (keys : List ℕ) : List (ℕ × Option ℕ) := keys.map fun k => (k, some k)

theorem adds_keep_order_scattered :
    StepsMeet (addStep natComparator.cmp) (AddsInOrder natComparator.cmp) (avltCreate false)
        (addsOf [5, 3, 9, 1, 4, 7, 3]) ∧
      KeysInOrder natComparator false (addsOf [5, 3, 9, 1, 4, 7, 3]) := by
  have hmeet : StepsMeet (addStep natComparator.cmp) (AddsInOrder natComparator.cmp)
      (avltCreate false) (addsOf [5, 3, 9, 1, 4, 7, 3]) := by decide
  exact ⟨hmeet, adds_keep_order natComparator false _ hmeet⟩

/-- Adding 3 below 5 puts it above the whole of a subtree that holds 2 and 4. -/
theorem misplaced_inner_subtree :
    ¬ KeysInOrder natComparator false (addsOf [0, 1, 2, 5, 6, 7, 4, 3]) := by
  rintro ⟨tree, T, hrun, hshape, hsorted, -⟩
  have hcheck : (runSteps (addStep natComparator.cmp) (avltCreate false)
      (addsOf [0, 1, 2, 5, 6, 7, 4, 3])).all (fun r => (treeOf r.1).all fun T =>
        ¬ (T.values.map AvltData.key).Pairwise (fun a b => natComparator.cmp a b < 0)) =
          true := by decide
  rw [hrun] at hcheck
  simp only [Option.all_some, hshape.treeOf_eq] at hcheck
  exact of_decide_eq_true hcheck hsorted

end AvlTree
end LibHL
