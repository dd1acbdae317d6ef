import LibHL.Support.PointerTree
import Mathlib.Data.Nat.Log

/-!
# Red-black trees

The colours of the nodes of a binary tree say that it is not far from balanced.  The
invariant is stated in the usual way, by the colours of neighbours and the number of
black nodes on the paths, and again for a subtree and the frames above it, where code
that recolours and rotates takes place.
-/

namespace LibHL

/-- The colour of a node. -/
inductive Color where
  | red
  | black
  deriving DecidableEq

/-- What a node of this colour adds to the number of black nodes. -/
def Color.weight : Color → ℕ
  | .red => 0
  | .black => 1

theorem Color.eq_black_of_ne {c : Color} (h : c ≠ .red) : c = .black := by
  cases c
  · exact absurd rfl h
  · rfl

theorem Color.eq_red_of_ne {c : Color} (h : c ≠ .black) : c = .red := by
  cases c
  · rfl
  · exact absurd rfl h

open PTree

namespace PTree

variable {α : Type*} (color : α → Color)

/-- The colour of the root; null pointers count as black. -/
def rootColor : PTree α → Color
  | leaf => .black
  | node _ _ x _ => color x

/-- No red node has a red child. -/
def RedsApart : PTree α → Prop
  | leaf => True
  | node l _ x r => RedsApart l ∧ RedsApart r ∧
      (color x = .red → rootColor color l = .black ∧ rootColor color r = .black)

/-- The numbers of black nodes on the paths from the root to a null pointer. -/
def blackCounts : PTree α → List ℕ
  | leaf => [0]
  | node l _ x r => (blackCounts l ++ blackCounts r).map (· + (color x).weight)

/-- The root is black, no red node has a red child, and all paths from the root to a null
pointer have the same number of black nodes. -/
structure RedBlack (t : PTree α) : Prop where
  root : rootColor color t = .black
  apart : RedsApart color t
  counts : ∀ j ∈ blackCounts color t, ∀ k ∈ blackCounts color t, j = k

instance decidableRedsApart : ∀ t : PTree α, Decidable (RedsApart color t)
  | leaf => isTrue trivial
  | node l _ x r =>
      have := decidableRedsApart l
      have := decidableRedsApart r
      inferInstanceAs (Decidable (_ ∧ _ ∧ (color x = .red → _ ∧ _)))

instance (t : PTree α) : Decidable (RedBlack color t) :=
  decidable_of_iff (rootColor color t = .black ∧ RedsApart color t ∧
      ∀ j ∈ blackCounts color t, ∀ k ∈ blackCounts color t, j = k)
    ⟨fun h => ⟨h.1, h.2.1, h.2.2⟩, fun h => ⟨h.root, h.apart, h.counts⟩⟩

/-- A subtree that may stand in a red-black tree, with `n` black nodes on every path. -/
def Coloured (n : ℕ) (t : PTree α) : Prop :=
  RedsApart color t ∧ ∀ k ∈ blackCounts color t, k = n

variable {color} {s : Side} {t u : PTree α} {a : Addr} {x : α} {n : ℕ}

@[simp] theorem rootColor_leaf : rootColor color (leaf : PTree α) = .black := rfl

@[simp] theorem rootColor_join : rootColor color (join s t u a x) = color x := by
  cases s <;> rfl

theorem redsApart_join : RedsApart color (join s t u a x) ↔
    RedsApart color t ∧ RedsApart color u ∧
      (color x = .red → rootColor color t = .black ∧ rootColor color u = .black) := by
  cases s
  · exact Iff.rfl
  · constructor
    · rintro ⟨hu, ht, hx⟩
      exact ⟨ht, hu, fun hred => (hx hred).symm⟩
    · rintro ⟨ht, hu, hx⟩
      exact ⟨hu, ht, fun hred => (hx hred).symm⟩

theorem mem_blackCounts_join {k : ℕ} : k ∈ blackCounts color (join s t u a x) ↔
    ∃ m, (m ∈ blackCounts color t ∨ m ∈ blackCounts color u) ∧ m + (color x).weight = k := by
  cases s
  · rw [join, blackCounts, List.mem_map]
    exact exists_congr fun m => and_congr_left' List.mem_append
  · rw [join, blackCounts, List.mem_map]
    exact exists_congr fun m => and_congr_left' (List.mem_append.trans or_comm)

theorem blackCounts_ne_nil (t : PTree α) : blackCounts color t ≠ [] := by
  induction t with
  | leaf => exact List.cons_ne_nil _ _
  | node l a x r ihl ihr =>
      rw [blackCounts, ne_eq, List.map_eq_nil_iff, List.append_eq_nil_iff]
      exact fun h => ihl h.1

theorem coloured_leaf : Coloured color n (leaf : PTree α) ↔ n = 0 := by
  constructor
  · exact fun h => (h.2 0 (List.mem_singleton_self _)).symm
  · rintro rfl
    exact ⟨trivial, fun k hk => List.mem_singleton.mp hk⟩

theorem Coloured.unique {m : ℕ} (hm : Coloured color m t) (hn : Coloured color n t) : m = n := by
  have hne : blackCounts color t ≠ [] := blackCounts_ne_nil t
  obtain ⟨k, hk⟩ := List.exists_mem_of_ne_nil _ hne
  exact (hm.2 k hk).symm.trans (hn.2 k hk)

theorem coloured_join : Coloured color n (join s t u a x) ↔
    ∃ m, n = m + (color x).weight ∧ Coloured color m t ∧ Coloured color m u ∧
      (color x = .red → rootColor color t = .black ∧ rootColor color u = .black) := by
  rw [Coloured, redsApart_join]
  constructor
  · rintro ⟨⟨ht, hu, hx⟩, hcounts⟩
    have hne : blackCounts color t ≠ [] := blackCounts_ne_nil t
    obtain ⟨m, hm⟩ := List.exists_mem_of_ne_nil _ hne
    have hn : m + (color x).weight = n :=
      hcounts _ (mem_blackCounts_join.mpr ⟨m, Or.inl hm, rfl⟩)
    have hall : ∀ k, k ∈ blackCounts color t ∨ k ∈ blackCounts color u → k = m := by
      intro k hk
      have hkn := hcounts _ (mem_blackCounts_join.mpr ⟨k, hk, rfl⟩)
      exact Nat.add_right_cancel (hkn.trans hn.symm)
    exact ⟨m, hn.symm, ⟨ht, fun k hk => hall k (Or.inl hk)⟩,
      ⟨hu, fun k hk => hall k (Or.inr hk)⟩, hx⟩
  · rintro ⟨m, rfl, ⟨ht, htm⟩, ⟨hu, hum⟩, hx⟩
    refine ⟨⟨ht, hu, hx⟩, ?_⟩
    intro k hk
    obtain ⟨j, hj, rfl⟩ := mem_blackCounts_join.mp hk
    rw [hj.elim (htm j) (hum j)]

theorem coloured_join_red (hx : color x = .red) : Coloured color n (join s t u a x) ↔
    Coloured color n t ∧ Coloured color n u ∧ rootColor color t = .black ∧
      rootColor color u = .black := by
  rw [coloured_join, hx]
  constructor
  · rintro ⟨m, rfl, ht, hu, hcolors⟩
    exact ⟨ht, hu, hcolors rfl⟩
  · rintro ⟨ht, hu, hcolors⟩
    exact ⟨n, rfl, ht, hu, fun _ => hcolors⟩

theorem coloured_join_black (hx : color x = .black) : Coloured color n (join s t u a x) ↔
    ∃ m, n = m + 1 ∧ Coloured color m t ∧ Coloured color m u := by
  rw [coloured_join, hx]
  refine exists_congr fun m => ?_
  constructor
  · rintro ⟨hn, ht, hu, -⟩
    exact ⟨hn, ht, hu⟩
  · rintro ⟨hn, ht, hu⟩
    exact ⟨hn, ht, hu, nofun⟩

theorem Coloured.eq_leaf (h : Coloured color 0 t) (hroot : rootColor color t = .black) :
    t = leaf := by
  cases t with
  | leaf => rfl
  | node l a x r =>
      have hx : color x = .black := hroot
      obtain ⟨m, hm, -⟩ := (coloured_join_black (s := .left) hx).mp h
      cases hm

theorem Coloured.red_of_zero (h : Coloured color 0 t) (hne : t ≠ leaf) :
    rootColor color t = .red := by
  by_contra hroot
  exact hne (h.eq_leaf (Color.eq_black_of_ne hroot))

/-! ## Height -/

theorem Coloured.height_le (h : Coloured color n t) :
    t.height + (rootColor color t).weight ≤ 2 * n + 1 := by
  induction t generalizing n with
  | leaf =>
      rw [coloured_leaf.mp h]
      exact le_refl _
  | node l a x r ihl ihr =>
      obtain ⟨m, rfl, hl, hr, hx⟩ := (coloured_join (s := .left)).mp h
      have hheightl := ihl hl
      have hheightr := ihr hr
      rw [PTree.height, rootColor]
      cases hc : color x with
      | red =>
          obtain ⟨hleft, hright⟩ := hx hc
          rw [hleft, Color.weight] at hheightl
          rw [hright, Color.weight] at hheightr
          rw [Color.weight]
          omega
      | black =>
          rw [Color.weight]
          omega

theorem Coloured.two_pow_le_size (h : Coloured color n t) : 2 ^ n ≤ t.size + 1 := by
  induction t generalizing n with
  | leaf =>
      rw [coloured_leaf.mp h]
      exact le_refl _
  | node l a x r ihl ihr =>
      obtain ⟨m, rfl, hl, hr, -⟩ := (coloured_join (s := .left)).mp h
      have hsizel := ihl hl
      have hsizer := ihr hr
      have hpow : 2 ^ (m + (color x).weight) ≤ 2 ^ (m + 1) := by
        refine Nat.pow_le_pow_right (by decide) (Nat.add_le_add_left ?_ m)
        cases color x <;> decide
      rw [PTree.size]
      omega

theorem redBlack_iff : RedBlack color t ↔
    rootColor color t = .black ∧ ∃ n, Coloured color n t := by
  constructor
  · rintro ⟨hroot, hapart, hcounts⟩
    have hne : blackCounts color t ≠ [] := blackCounts_ne_nil t
    obtain ⟨m, hm⟩ := List.exists_mem_of_ne_nil _ hne
    exact ⟨hroot, m, hapart, fun k hk => hcounts k hk m hm⟩
  · rintro ⟨hroot, n, hapart, hcounts⟩
    exact ⟨hroot, hapart, fun j hj k hk => (hcounts j hj).trans (hcounts k hk).symm⟩

theorem RedBlack.height_le (h : RedBlack color t) :
    t.height ≤ 2 * Nat.log 2 (t.size + 1) := by
  obtain ⟨hroot, n, hcol⟩ := redBlack_iff.mp h
  have hheight := hcol.height_le
  rw [hroot, Color.weight] at hheight
  have hlog : n ≤ Nat.log 2 (t.size + 1) :=
    Nat.le_log_of_pow_le (by decide) hcol.two_pow_le_size
  omega

end PTree

/-! ## Positions -/

section Frames

variable {α : Type*} (color : α → Color)

/-- The colour above a position.  The root counts as if it were below a red node, since it
has to be black itself. -/
def topColor : List (Frame α) → Color
  | [] => .red
  | f :: _ => color f.data

/-- A subtree with `n` black nodes on every path fits below the frames, apart from the
colour of its root. -/
def ColouredFrames : ℕ → List (Frame α) → Prop
  | _, [] => True
  | n, f :: fs => Coloured color n f.sibling ∧
      (color f.data = .red → rootColor color f.sibling = .black ∧ topColor color fs = .black) ∧
      ColouredFrames (n + (color f.data).weight) fs

variable {color} {t : PTree α} {fs : List (Frame α)} {f : Frame α} {m n : ℕ}

theorem ColouredFrames.unique (hm : ColouredFrames color m (f :: fs))
    (hn : ColouredFrames color n (f :: fs)) : m = n :=
  hm.1.unique hn.1

theorem colouredFrames_congr {y : α} (hy : color y = color f.data) (gs : List (Frame α)) :
    ColouredFrames color n (gs ++ { f with data := y } :: fs) ↔
      ColouredFrames color n (gs ++ f :: fs) := by
  induction gs generalizing n with
  | nil => rw [List.nil_append, List.nil_append, ColouredFrames, ColouredFrames, hy]
  | cons g gs ih =>
      have htop : topColor color (gs ++ { f with data := y } :: fs) =
          topColor color (gs ++ f :: fs) := by
        cases gs with
        | nil => exact hy
        | cons g gs => rfl
      rw [List.cons_append, List.cons_append, ColouredFrames, ColouredFrames, ih, htop]

theorem redBlack_plug : RedBlack color (plug t fs) ↔ ∃ n, Coloured color n t ∧
    ColouredFrames color n fs ∧ (rootColor color t = .red → topColor color fs = .black) := by
  induction fs generalizing t with
  | nil =>
      rw [plug, redBlack_iff]
      constructor
      · rintro ⟨hroot, n, ht⟩
        refine ⟨n, ht, trivial, ?_⟩
        intro hred
        rw [hroot] at hred
        cases hred
      · rintro ⟨n, ht, -, hroot⟩
        refine ⟨Color.eq_black_of_ne ?_, n, ht⟩
        intro hred
        cases hroot hred
  | cons f fs ih =>
      rw [plug, ih]
      constructor
      · rintro ⟨n, hjoin, hfs, hroot⟩
        obtain ⟨m, rfl, ht, hu, hx⟩ := coloured_join.mp hjoin
        rw [rootColor_join] at hroot
        refine ⟨m, ht, ⟨hu, fun hred => ⟨(hx hred).2, hroot hred⟩, hfs⟩, ?_⟩
        intro hred
        refine Color.eq_black_of_ne fun hf => ?_
        rw [(hx hf).1] at hred
        cases hred
      · rintro ⟨m, ht, ⟨hu, hx, hfs⟩, hroot⟩
        refine ⟨m + (color f.data).weight, coloured_join.mpr ⟨m, rfl, ht, hu, ?_⟩, hfs, ?_⟩
        · intro hred
          refine ⟨Color.eq_black_of_ne fun hroot' => ?_, (hx hred).1⟩
          have hblack := hroot hroot'
          rw [topColor, hred] at hblack
          cases hblack
        · rw [rootColor_join]
          exact fun hred => (hx hred).2

theorem ne_nil_of_red (h : RedBlack color (plug t fs)) (hred : rootColor color t = .red) :
    fs ≠ [] := by
  rintro rfl
  cases h.root.symm.trans hred

/-- The only child of a node takes the place of the node, and a node above stores something
else of the same colour. -/
theorem redBlack_splice {s : Side} {a : Addr} {x y : α} {gs : List (Frame α)}
    (h : RedBlack color (plug (join s leaf t a x) (gs ++ f :: fs)))
    (hy : color y = color f.data) :
    RedBlack color (plug t (gs ++ { f with data := y } :: fs)) ↔ color x = .red := by
  obtain ⟨n, hcol, hfs, -⟩ := redBlack_plug.mp h
  obtain ⟨m, rfl, hleaf, ht, hred⟩ := coloured_join.mp hcol
  obtain rfl := coloured_leaf.mp hleaf
  constructor
  · intro hspliced
    obtain ⟨k, hk, hframes, -⟩ := redBlack_plug.mp hspliced
    obtain rfl := hk.unique ht
    have hzero := (colouredFrames_congr hy gs).mp hframes
    obtain ⟨g, hs, hcons⟩ := List.exists_cons_of_ne_nil
      (List.append_ne_nil_of_right_ne_nil gs (List.cons_ne_nil f fs))
    rw [hcons] at hzero hfs
    have hweight : 0 = 0 + (color x).weight := hzero.unique hfs
    refine Color.eq_red_of_ne fun hblack => ?_
    rw [hblack] at hweight
    cases hweight
  · intro hx
    have hroot := (hred hx).2
    refine redBlack_plug.mpr ⟨0, ht, (colouredFrames_congr hy gs).mpr ?_, fun hnot => ?_⟩
    · rwa [hx] at hfs
    · cases hroot.symm.trans hnot

/-- A leaf below the root goes away. -/
theorem redBlack_without_leaf {a : Addr} {x : α}
    (h : RedBlack color (plug (.node leaf a x leaf) (f :: fs))) :
    RedBlack color (plug leaf (f :: fs)) ↔ color x = .red := by
  have hjoin : RedBlack color (plug (join .left leaf leaf a x) ([] ++ f :: fs)) := h
  exact redBlack_splice hjoin rfl

theorem eq_leaf_of_red {s : Side} {a : Addr} {x : α}
    (h : RedBlack color (plug (join s leaf t a x) fs)) (hx : color x = .red) : t = leaf := by
  obtain ⟨n, hcol, -, -⟩ := redBlack_plug.mp h
  obtain ⟨m, -, hleaf, ht, hred⟩ := coloured_join.mp hcol
  obtain rfl := coloured_leaf.mp hleaf
  exact ht.eq_leaf (hred hx).2

/-- A node of a red-black tree with one child is black, and the child is red. -/
theorem colours_of_one_child {s : Side} {a : Addr} {x : α}
    (h : RedBlack color (plug (join s leaf t a x) fs)) (hne : t ≠ leaf) :
    color x = .black ∧ rootColor color t = .red ∧ Coloured color 0 t ∧
      ColouredFrames color 1 fs := by
  have hx : color x = .black := Color.eq_black_of_ne fun hx => hne (eq_leaf_of_red h hx)
  obtain ⟨n, hcol, hfs, -⟩ := redBlack_plug.mp h
  obtain ⟨m, rfl, hleaf, ht⟩ := (coloured_join_black hx).mp hcol
  obtain rfl := coloured_leaf.mp hleaf
  exact ⟨hx, ht.red_of_zero hne, ht, hfs⟩

end Frames

end LibHL
