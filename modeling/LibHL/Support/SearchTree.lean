import LibHL.Support.PointerTree
import LibHL.Support.Comparator

/-!
# The order of the keys in a tree

A binary tree is ordered if its keys are strictly ascending from left to right.  The
order is stated side by side as well: what is on one side of a node compares towards that
side with the node, and what is below a position compares with every frame above it
towards the side that the position is on.
-/

namespace LibHL

/-- What compares as `c` with a node lies on this side of the node. -/
def Toward : Side → ℤ → Prop
  | .left, c => c < 0
  | .right, c => 0 < c

instance (s : Side) (c : ℤ) : Decidable (Toward s c) :=
  match s with
  | .left => inferInstanceAs (Decidable (c < 0))
  | .right => inferInstanceAs (Decidable (0 < c))

theorem toward_or {c : ℤ} (s : Side) (hc : c ≠ 0) (h : ¬ Toward s c) : Toward s.other c := by
  cases s
  · have hnot : ¬ c < 0 := h
    show 0 < c
    omega
  · have hnot : ¬ 0 < c := h
    show c < 0
    omega

theorem not_toward_zero (s : Side) : ¬ Toward s 0 := by
  cases s
  · exact lt_irrefl (0 : ℤ)
  · exact lt_irrefl (0 : ℤ)

namespace Comparator

variable {K : Type*} (c : Comparator K) {s : Side} {a b d : K}

theorem toward_dual : Toward s (c.cmp a b) ↔ Toward s.other (c.cmp b a) := by
  cases s
  · exact c.lt_iff a b
  · exact (c.lt_iff b a).symm

theorem lt_trans (h₁ : c.cmp a b < 0) (h₂ : c.cmp b d < 0) : c.cmp a d < 0 := by
  rw [← Int.not_le, c.dual]
  intro hda
  have hdb : c.cmp d b ≤ 0 := c.trans d a b hda (le_of_lt h₁)
  exact absurd h₂ (Int.not_lt.mpr ((c.dual b d).mpr hdb))

theorem toward_trans (h₁ : Toward s (c.cmp a b)) (h₂ : Toward s (c.cmp b d)) :
    Toward s (c.cmp a d) := by
  cases s
  · exact c.lt_trans h₁ h₂
  · have h : c.cmp d a < 0 := c.lt_trans ((c.lt_iff d b).mpr h₂) ((c.lt_iff b a).mpr h₁)
    exact (c.lt_iff d a).mp h

end Comparator

open PTree

/-! ## Ordered trees -/

section Ordered

variable {α K : Type*} (c : Comparator K) (key : α → K) {s : Side} {t u : PTree α}
  {a : Addr} {x y : α}

/-- The keys are strictly ascending from left to right. -/
def Ordered (t : PTree α) : Prop :=
  t.values.Pairwise fun x y => c.cmp (key x) (key y) < 0

@[simp] theorem ordered_leaf : Ordered c key (.leaf : PTree α) := List.Pairwise.nil

theorem mem_values_join :
    y ∈ (join s t u a x).values ↔ y ∈ t.values ∨ y = x ∨ y ∈ u.values := by
  cases s
  · rw [join, values, List.mem_append, List.mem_cons]
  · rw [join, values, List.mem_append, List.mem_cons, or_comm, or_assoc]
    exact or_left_comm

theorem ordered_join : Ordered c key (join s t u a x) ↔
    Ordered c key t ∧ Ordered c key u ∧
      (∀ y ∈ t.values, Toward s (c.cmp (key y) (key x))) ∧
      ∀ y ∈ u.values, Toward s.other (c.cmp (key y) (key x)) := by
  have hnode : ∀ l r : PTree α, Ordered c key (.node l a x r) ↔
      Ordered c key l ∧ Ordered c key r ∧ (∀ y ∈ l.values, c.cmp (key y) (key x) < 0) ∧
        ∀ y ∈ r.values, 0 < c.cmp (key y) (key x) := by
    intro l r
    rw [Ordered, values, List.pairwise_append, List.pairwise_cons]
    constructor
    · rintro ⟨hl, ⟨hx, hr⟩, hlr⟩
      refine ⟨hl, hr, fun y hy => hlr y hy x List.mem_cons_self, ?_⟩
      exact fun y hy => (c.lt_iff _ _).mp (hx y hy)
    · rintro ⟨hl, hr, hlx, hrx⟩
      refine ⟨hl, ⟨fun y hy => (c.lt_iff _ _).mpr (hrx y hy), hr⟩, ?_⟩
      intro y hy z hz
      rcases List.mem_cons.mp hz with rfl | hz
      · exact hlx y hy
      · exact c.lt_trans (hlx y hy) ((c.lt_iff _ _).mpr (hrx z hz))
  cases s
  · exact hnode t u
  · refine (hnode u t).trans ?_
    constructor
    · rintro ⟨hu, ht, hux, htx⟩
      exact ⟨ht, hu, htx, hux⟩
    · rintro ⟨ht, hu, htx, hux⟩
      exact ⟨hu, ht, hux, htx⟩

/-! ## Positions of ordered trees -/

/-- A key belongs to the position below the frames. -/
def Around (k : K) (fs : List (Frame α)) : Prop :=
  ∀ f ∈ fs, Toward f.side (c.cmp k (key f.data)) ∧
    ∀ y ∈ f.sibling.values, Toward f.side (c.cmp k (key y))

/-- The frames are ordered among themselves. -/
def OrderedFrames : List (Frame α) → Prop
  | [] => True
  | f :: fs => Ordered c key f.sibling ∧
      (∀ y ∈ f.sibling.values, Toward f.side.other (c.cmp (key y) (key f.data))) ∧
      Around c key (key f.data) fs ∧ (∀ y ∈ f.sibling.values, Around c key (key y) fs) ∧
      OrderedFrames fs

variable {c key} {k : K} {f : Frame α} {fs : List (Frame α)}

theorem around_cons : Around c key k (f :: fs) ↔
    (Toward f.side (c.cmp k (key f.data)) ∧
      ∀ y ∈ f.sibling.values, Toward f.side (c.cmp k (key y))) ∧ Around c key k fs :=
  List.forall_mem_cons

/-- A tree is ordered if its parts at a position are, and the keys below the position
belong there. -/
theorem ordered_plug (t : PTree α) (fs : List (Frame α)) : Ordered c key (plug t fs) ↔
    Ordered c key t ∧ OrderedFrames c key fs ∧ ∀ y ∈ t.values, Around c key (key y) fs := by
  induction fs generalizing t with
  | nil => exact ⟨fun h => ⟨h, trivial, fun _ _ => nofun⟩, fun h => h.1⟩
  | cons f fs ih =>
      rw [plug, ih, ordered_join]
      constructor
      · rintro ⟨⟨ht, hu, htx, hux⟩, hfs, haround⟩
        refine ⟨ht, ⟨hu, hux, haround _ (mem_values_join.mpr (Or.inr (Or.inl rfl))),
          fun y hy => haround y (mem_values_join.mpr (Or.inr (Or.inr hy))), hfs⟩, ?_⟩
        intro y hy
        refine around_cons.mpr ⟨⟨htx y hy, ?_⟩, haround y (mem_values_join.mpr (Or.inl hy))⟩
        intro z hz
        exact c.toward_trans (htx y hy) (c.toward_dual.mpr (hux z hz))
      · rintro ⟨ht, ⟨hu, hux, hx, hus, hfs⟩, haround⟩
        refine ⟨⟨ht, hu, fun y hy => (around_cons.mp (haround y hy)).1.1, hux⟩, hfs, ?_⟩
        intro y hy
        rcases mem_values_join.mp hy with hy | rfl | hy
        · exact (around_cons.mp (haround y hy)).2
        · exact hx
        · exact hus y hy

theorem around_down (h : Ordered c key (plug (join s t u a x) fs)) (hk : Around c key k fs)
    (hx : Toward s (c.cmp k (key x))) : Around c key k (⟨s, a, x, u⟩ :: fs) := by
  refine around_cons.mpr ⟨⟨hx, ?_⟩, hk⟩
  intro y hy
  obtain ⟨-, -, -, hux⟩ := (ordered_join c key).mp ((ordered_plug _ _).mp h).1
  exact c.toward_trans hx (c.toward_dual.mpr (hux y hy))

end Ordered

/-! ## What a tree stores -/

section Bag

variable {α β : Type*} (f : α → β)

/-- What the nodes store, as seen through a function. -/
def PTree.bag (t : PTree α) : Multiset β := ↑(t.values.map f)

/-- What the frames and the subtrees at them store. -/
def frameBag : List (Frame α) → Multiset β
  | [] => 0
  | g :: fs => {f g.data} + (g.sibling.bag f + frameBag fs)

@[simp] theorem bag_leaf : (.leaf : PTree α).bag f = 0 := rfl

theorem bag_join (s : Side) (t u : PTree α) (a : Addr) (x : α) :
    (join s t u a x).bag f = {f x} + (t.bag f + u.bag f) := by
  have hnode : ∀ l r : PTree α, (PTree.node l a x r).bag f = {f x} + (l.bag f + r.bag f) := by
    intro l r
    rw [bag, values, List.map_append, ← Multiset.coe_add, List.map_cons, ← Multiset.cons_coe,
      ← Multiset.singleton_add]
    exact add_left_comm _ _ _
  cases s
  · exact hnode t u
  · rw [add_comm (t.bag f)]
    exact hnode u t

theorem bag_plug (t : PTree α) (fs : List (Frame α)) :
    (plug t fs).bag f = t.bag f + frameBag f fs := by
  induction fs generalizing t with
  | nil => exact (add_zero _).symm
  | cons g fs ih =>
      rw [plug, ih, bag_join, frameBag]
      abel

theorem map_cells (t : PTree α) (p : Option Addr) :
    ((t.cells p).map fun c => f c.2.data) = t.bag f := by
  induction t generalizing p with
  | leaf => rfl
  | node l a x r ihl ihr =>
      rw [cells, Multiset.map_add, Multiset.map_add, Multiset.map_singleton, ihl, ihr]
      exact (bag_join f .left l r a x).symm

theorem map_frameCells (c : Option Addr) (fs : List (Frame α)) :
    ((frameCells c fs).map fun c => f c.2.data) = frameBag f fs := by
  induction fs generalizing c with
  | nil => rfl
  | cons g fs ih =>
      rw [frameCells, Multiset.map_add, Multiset.map_add, Multiset.map_singleton, map_cells, ih,
        LinkedNode.data_link, frameBag]

theorem mem_bag {t : PTree α} {b : β} : b ∈ t.bag f ↔ ∃ x ∈ t.values, f x = b := by
  rw [bag, Multiset.mem_coe, List.mem_map]

end Bag

/-! ## Reading a tree from a heap -/

section Read

variable {α : Type*}

/-- The tree behind a pointer; none if it is not that of a tree of bounded height. -/
def readTree (h : Heap (LinkedNode α)) : ℕ → Option Addr → Option (PTree α)
  | _, none => some .leaf
  | 0, some _ => none
  | fuel + 1, some a => do
      let n ← h a
      let l ← readTree h fuel n.left
      let r ← readTree h fuel n.right
      some (.node l a n.data r)

theorem readTree_of_cells {h : Heap (LinkedNode α)} {t : PTree α} : ∀ {fuel : ℕ}
    {p : Option Addr} {s : Multiset (Addr × LinkedNode α)}, t.height ≤ fuel →
      h.cells = t.cells p + s → readTree h fuel t.addr = some t := by
  induction t with
  | leaf =>
      intro fuel p s _ _
      cases fuel <;> rfl
  | node l a x r ihl ihr =>
      intro fuel p s hfuel hs
      rw [height] at hfuel
      obtain ⟨fuel, rfl⟩ := Nat.exists_eq_add_of_le' (Nat.le_trans (Nat.le_add_left 1 _) hfuel)
      rw [cells] at hs
      have ha := Heap.eq_some_of_cells (hs.trans (add_assoc _ _ _))
      have hl : h.cells = l.cells (some a) + ({(a, ⟨l.addr, r.addr, p, x⟩)} +
          r.cells (some a) + s) := by
        rw [hs]
        abel
      have hr : h.cells = r.cells (some a) + ({(a, ⟨l.addr, r.addr, p, x⟩)} +
          l.cells (some a) + s) := by
        rw [hs]
        abel
      have hreadl := ihl (by omega : l.height ≤ fuel) hl
      have hreadr := ihr (by omega : r.height ≤ fuel) hr
      show readTree h (fuel + 1) (some a) = _
      simp [readTree, ha, hreadl, hreadr]

end Read

end LibHL
