import LibHL.RbTree.Search

/-!
# Repairing the colours after an addition

The cases of `rbt_add` work on the subtree of the new red node and the two nodes above it.
A red uncle is handled by recolouring and by adding the key of the grandparent once more,
which puts a fresh red node in its place; then the same cases apply two levels further up,
unless an allocation fails.  The relation says this on addressed trees, and the code
follows it.
-/

namespace LibHL
namespace RbTree

open LinkedNode PTree RbtData

variable {V : Type}

/-- The subtree of a grandparent, with its node at `a`, when the parent and the uncle have
been painted black and the grandparent red. -/
def recoloured (a : Addr) (t : PTree (RbtData V)) (f g : Frame (RbtData V)) :
    PTree (RbtData V) :=
  join g.side (join f.side t f.sibling f.addr (f.data.paint .black))
    (paintRoot .black g.sibling) a (g.data.paint .red)

/-- The subtree after the grandparent went down beside `t`, below the parent. -/
def lifted (t : PTree (RbtData V)) (f g : Frame (RbtData V)) : PTree (RbtData V) :=
  join g.side t (join g.side f.sibling g.sibling g.addr (g.data.paint .red)) f.addr
    (f.data.paint .black)

/-- The cases of `rbt_add` for a red node at a place. -/
inductive Repairs : (ℕ → Bool) → PTree (RbtData V) → List (Frame (RbtData V)) →
    PTree (RbtData V) → Prop where
  | top (mem : ℕ → Bool) (t : PTree (RbtData V)) : Repairs mem t [] (paintRoot .black t)
  | settled (mem : ℕ → Bool) (t : PTree (RbtData V)) (f : Frame (RbtData V))
      (fs : List (Frame (RbtData V))) (hf : f.data.color = .black ∨ fs = []) :
      Repairs mem t (f :: fs) (plug t (f :: fs))
  | recolour (mem : ℕ → Bool) (t T : PTree (RbtData V)) (f g : Frame (RbtData V))
      (fs : List (Frame (RbtData V))) (new : Addr) (hf : f.data.color = .red)
      (hg : colorAt g.sibling = .red) (hmem : mem 0 = true ∧ mem 1 = true)
      (hrec : Repairs (fun i => mem (i + 2)) (recoloured new t f g) fs T) :
      Repairs mem t (f :: g :: fs) T
  | abandon (mem : ℕ → Bool) (t : PTree (RbtData V)) (f g : Frame (RbtData V))
      (fs : List (Frame (RbtData V))) (hf : f.data.color = .red)
      (hg : colorAt g.sibling = .red) (hmem : ¬ (mem 0 = true ∧ mem 1 = true)) :
      Repairs mem t (f :: g :: fs) (plug (recoloured g.addr t f g) fs)
  | outer (mem : ℕ → Bool) (t : PTree (RbtData V)) (f g : Frame (RbtData V))
      (fs : List (Frame (RbtData V))) (hf : f.data.color = .red)
      (hg : colorAt g.sibling = .black) (hside : f.side = g.side) :
      Repairs mem t (f :: g :: fs) (plug (lifted t f g) fs)
  | inner (mem : ℕ → Bool) (a b : PTree (RbtData V)) (x : Addr) (d : RbtData V)
      (f g : Frame (RbtData V)) (fs : List (Frame (RbtData V))) (hf : f.data.color = .red)
      (hg : colorAt g.sibling = .black) (hside : f.side = g.side.other) :
      Repairs mem (join g.side a b x d) (f :: g :: fs)
        (plug (lifted (join g.side f.sibling a f.addr f.data) ⟨g.side, x, d, b⟩ g) fs)

section Kept

variable {mem : ℕ → Bool} {t T : PTree (RbtData V)} {f g : Frame (RbtData V)}
  {fs : List (Frame (RbtData V))}

theorem entries_paintRoot (c : Color) (t : PTree (RbtData V)) :
    (paintRoot c t).values.map entry = t.values.map entry :=
  map_values_mapRoot (fun d => entry_paint d c) t

theorem entries_recoloured (a : Addr) : (recoloured a t f g).values.map entry =
    (plug t [f, g]).values.map entry :=
  map_values_join (map_values_join rfl rfl (entry_paint _ _)) (entries_paintRoot _ _)
    (entry_paint _ _)

theorem values_turn (s : Side) (t u v : PTree (RbtData V)) (a b : Addr) (x y : RbtData V) :
    (join s t (join s u v b y) a x).values = (join s (join s t u a x) v b y).values := by
  rw [values_rotate, join_other]

theorem entries_lifted (hside : f.side = g.side) :
    (lifted t f g).values.map entry = (plug t [f, g]).values.map entry := by
  have hplug : plug t [f, g] =
      join g.side (join g.side t f.sibling f.addr f.data) g.sibling g.addr g.data := by
    rw [plug, plug, plug, hside]
  rw [hplug, ← values_turn]
  exact map_values_join rfl (map_values_join rfl rfl (entry_paint _ _)) (entry_paint _ _)

theorem entries_inner {a b : PTree (RbtData V)} {x : Addr} {d : RbtData V}
    (hside : f.side = g.side.other) :
    (lifted (join g.side f.sibling a f.addr f.data) ⟨g.side, x, d, b⟩ g).values.map entry =
      (plug (join g.side a b x d) [f, g]).values.map entry := by
  have hlift := entries_lifted (f := ⟨g.side, x, d, b⟩) (g := g)
    (t := join g.side f.sibling a f.addr f.data) rfl
  rw [hlift, plug, plug, plug, plug, plug, plug, hside, join_other]
  refine map_values_join ?_ rfl rfl
  rw [values_turn]

theorem Repairs.entries_eq (h : Repairs mem t fs T) :
    T.values.map entry = (plug t fs).values.map entry := by
  have hplug : ∀ (t : PTree (RbtData V)) (f g : Frame (RbtData V)) fs,
      plug t (f :: g :: fs) = plug (plug t [f, g]) fs := fun _ _ _ _ => rfl
  induction h with
  | top mem t => exact entries_paintRoot _ t
  | settled => rfl
  | recolour mem t T f g fs new hf hg hmem hrec ih =>
      rw [ih, hplug]
      exact map_values_plug (entries_recoloured new) fs
  | abandon mem t f g fs =>
      rw [hplug]
      exact map_values_plug (entries_recoloured g.addr) fs
  | outer mem t f g fs hf hg hside =>
      rw [hplug]
      exact map_values_plug (entries_lifted hside) fs
  | inner mem a b x d f g fs hf hg hside =>
      rw [hplug]
      exact map_values_plug (entries_inner hside) fs

/-! ## The colours -/

variable {n : ℕ}

theorem coloured_paintRoot_black (h : Coloured RbtData.color n t) :
    ∃ m, n ≤ m ∧ Coloured RbtData.color m (paintRoot .black t) := by
  cases t with
  | leaf => exact ⟨n, le_refl n, h⟩
  | node l a d r =>
      obtain ⟨m, rfl, hl, hr, -⟩ := (coloured_join (s := .left)).mp h
      refine ⟨m + 1, Nat.add_le_add_left ?_ m, ?_⟩
      · cases d.color <;> decide
      · exact (coloured_join_black (s := .left) rfl).mpr ⟨m, rfl, hl, hr⟩

theorem coloured_paintRoot_of_red (h : Coloured RbtData.color n t) (hred : colorAt t = .red) :
    Coloured RbtData.color (n + 1) (paintRoot .black t) := by
  cases t with
  | leaf => cases hred
  | node l a d r =>
      have hd : d.color = .red := hred
      obtain ⟨hl, hr, -⟩ := (coloured_join_red (s := .left) hd).mp h
      exact (coloured_join_black (s := .left) rfl).mpr ⟨n, rfl, hl, hr⟩

/-- Above a red parent there is a black grandparent. -/
theorem colouredFrames_red (h : ColouredFrames RbtData.color n (f :: g :: fs))
    (hf : f.data.color = .red) :
    Coloured RbtData.color n f.sibling ∧ colorAt f.sibling = .black ∧
      g.data.color = .black ∧ Coloured RbtData.color n g.sibling ∧
      ColouredFrames RbtData.color (n + 1) fs := by
  obtain ⟨hsib, hred, hg⟩ := h
  obtain ⟨hblack, htop⟩ := hred hf
  rw [hf] at hg
  obtain ⟨hgsib, -, hfs⟩ := hg
  rw [topColor] at htop
  rw [htop] at hfs
  exact ⟨hsib, hblack, htop, hgsib, hfs⟩

theorem coloured_recoloured (a : Addr) (ht : Coloured RbtData.color n t)
    (hsib : Coloured RbtData.color n f.sibling) (hgsib : Coloured RbtData.color n g.sibling)
    (hg : colorAt g.sibling = .red) :
    Coloured RbtData.color (n + 1) (recoloured a t f g) := by
  refine (coloured_join_red rfl).mpr ⟨?_, coloured_paintRoot_of_red hgsib hg, ?_, ?_⟩
  · exact (coloured_join_black rfl).mpr ⟨n, rfl, ht, hsib⟩
  · exact rootColor_join
  · cases hleaf : g.sibling with
    | leaf => rfl
    | node l a d r => rfl

theorem coloured_lifted (ht : Coloured RbtData.color n t)
    (hsib : Coloured RbtData.color n f.sibling) (hgsib : Coloured RbtData.color n g.sibling)
    (hf : colorAt f.sibling = .black) (hg : colorAt g.sibling = .black) :
    Coloured RbtData.color (n + 1) (lifted t f g) := by
  refine (coloured_join_black rfl).mpr ⟨n, rfl, ht, ?_⟩
  exact (coloured_join_red rfl).mpr ⟨hsib, hgsib, hf, hg⟩

/-- A repair that starts below these frames is carried to its end, or it is given up below a
black node. -/
def RepairFits : (ℕ → Bool) → List (Frame (RbtData V)) → Prop
  | mem, f :: g :: fs =>
      if f.data.color = .red ∧ colorAt g.sibling = .red then
        if mem 0 = true ∧ mem 1 = true then RepairFits (fun i => mem (i + 2)) fs
        else topColor RbtData.color fs = .black
      else True
  | _, _ => True

theorem repairFits_of_black {mem : ℕ → Bool} (h : topColor RbtData.color fs = .black) :
    RepairFits mem fs := by
  match fs, h with
  | [f], _ => exact trivial
  | f :: g :: fs, h =>
      rw [RepairFits, if_neg]
      · exact trivial
      · rintro ⟨hf, -⟩
        cases hf.symm.trans h

theorem repairFits_of_plenty : ∀ {mem : ℕ → Bool} (_ : ∀ i, mem i = true)
    (fs : List (Frame (RbtData V))), RepairFits mem fs
  | _, _, [] => trivial
  | _, _, [_] => trivial
  | _, hmem, f :: g :: fs => by
      rw [RepairFits]
      split
      · rw [if_pos ⟨hmem 0, hmem 1⟩]
        exact repairFits_of_plenty (fun i => hmem (i + 2)) fs
      · exact trivial

/-- When a repair of a red node ends with a red-black tree. -/
theorem Repairs.redBlack_iff (h : Repairs mem t fs T) (ht : Coloured RbtData.color n t)
    (hred : colorAt t = .red) (hfs : ColouredFrames RbtData.color n fs) :
    RedBlack RbtData.color T ↔ RepairFits mem fs := by
  induction h generalizing n with
  | top mem t =>
      obtain ⟨m, -, hm⟩ := coloured_paintRoot_black ht
      refine iff_of_true (PTree.redBlack_iff.mpr ⟨?_, m, hm⟩) trivial
      cases t <;> rfl
  | settled mem t f fs hf =>
      have htop : f.data.color = .black := by
        rcases hf with hf | rfl
        · exact hf
        · refine Color.eq_black_of_ne fun hf => ?_
          cases (hfs.2.1 hf).2
      exact iff_of_true (redBlack_plug.mpr ⟨n, ht, hfs, fun _ => htop⟩) (repairFits_of_black htop)
  | recolour mem t T f g fs new hf hg hmem' hrec ih =>
      obtain ⟨hsib, -, hblack, hgsib, hfs'⟩ := colouredFrames_red hfs hf
      rw [RepairFits, if_pos ⟨hf, hg⟩, if_pos hmem']
      exact ih (coloured_recoloured new ht hsib hgsib hg) rootColor_join hfs'
  | abandon mem t f g fs hf hg hmem' =>
      obtain ⟨hsib, -, hblack, hgsib, hfs'⟩ := colouredFrames_red hfs hf
      have hcol := coloured_recoloured g.addr ht hsib hgsib hg
      rw [RepairFits, if_pos ⟨hf, hg⟩, if_neg hmem']
      constructor
      · intro hredBlack
        obtain ⟨m, -, -, htop⟩ := redBlack_plug.mp hredBlack
        exact htop rootColor_join
      · exact fun htop => redBlack_plug.mpr ⟨n + 1, hcol, hfs', fun _ => htop⟩
  | outer mem t f g fs hf hg hside =>
      obtain ⟨hsib, hblack, -, hgsib, hfs'⟩ := colouredFrames_red hfs hf
      rw [RepairFits, if_neg fun hnot => by cases hg.symm.trans hnot.2]
      refine iff_of_true (redBlack_plug.mpr
        ⟨n + 1, coloured_lifted ht hsib hgsib hblack hg, hfs', fun hroot => ?_⟩) trivial
      rw [lifted, rootColor_join] at hroot
      cases hroot
  | inner mem a b x d f g fs hf hg hside =>
      obtain ⟨hsib, hblack, -, hgsib, hfs'⟩ := colouredFrames_red hfs hf
      rw [colorAt, rootColor_join] at hred
      obtain ⟨ha, hb, haroot, hbroot⟩ := (coloured_join_red hred).mp ht
      have hleft : Coloured RbtData.color n (join g.side f.sibling a f.addr f.data) :=
        (coloured_join_red hf).mpr ⟨hsib, ha, hblack, haroot⟩
      rw [RepairFits, if_neg fun hnot => by cases hg.symm.trans hnot.2]
      refine iff_of_true (redBlack_plug.mpr
        ⟨n + 1, coloured_lifted hleft hb hgsib hbroot hg, hfs', fun hroot => ?_⟩) trivial
      rw [lifted, rootColor_join] at hroot
      cases hroot

end Kept

/-! ## What the code does -/

section Code

variable {tree : Rbt V} {nodes : Heap (RbtNode V)} {root : Option Addr}
  {t u : PTree (RbtData V)} {f g : Frame (RbtData V)} {fs : List (Frame (RbtData V))}
  {rest : Multiset (Addr × RbtNode V)} {s : Side} {x y : Addr} {d : RbtData V}

theorem rbtGrandparent_spec (h : Placed nodes root (join s t u x d) (f :: fs) rest) :
    rbtGrandparent nodes x = some (parentOf fs) := by
  simp [rbtGrandparent, h.node_eq, h.above_eq]

theorem uncle_ne (h : Placed nodes root t (f :: g :: fs) rest) :
    g.sibling.addr ≠ some f.addr :=
  (placed_cons.mp h).sibling_ne

theorem rbtUncle_spec (h : Placed nodes root (join s t u x d) (f :: g :: fs) rest) :
    rbtUncle nodes x = some g.sibling.addr := by
  have hg := (placed_cons.mp h).above_eq
  rw [addr_join] at hg
  simp [rbtUncle, rbtGrandparent_spec h, h.node_eq, hg, sideOf_link (uncle_ne h)]

theorem rbtUncle_top (h : Placed nodes root (join s t u x d) [f] rest) :
    rbtUncle nodes x = some none := by
  simp [rbtUncle, rbtGrandparent_spec h]

/-- The callback and what has been passed to it are as they were. -/
def SameLog (tree tree' : Rbt V) : Prop :=
  tree'.freeValueCb = tree.freeValueCb ∧ tree'.freed = tree.freed

/-- Case 5. -/
theorem liftParent_spec (h : Placed tree.nodes tree.root (join s t u y d) (f :: g :: fs) 0)
    (hside : f.side = g.side) (rc : ℤ) :
    ∃ tree', liftParent tree y rc = some (tree', rc) ∧
      Represents tree' (plug (lifted (join s t u y d) f g) fs) ∧ SameLog tree tree' := by
  obtain ⟨side, p, e, v⟩ := f
  obtain rfl : side = g.side := hside
  have hgrand := rbtGrandparent_spec h
  have hy := h.node_eq
  obtain ⟨nodes₁, hpaint₁, h₁⟩ := paint_above h .black
  obtain ⟨nodes₂, hpaint₂, h₂⟩ := paint_above (placed_cons.mp h₁) .red
  have h₂' := placed_cons.mpr h₂
  have hp := h₂'.above_eq
  have hne := h₂'.sibling_ne
  have hturn : Placed { tree with nodes := nodes₂ }.nodes tree.root (join g.side.other g.sibling
      (join g.side.other v (join s t u y d) p (e.paint .black)) g.addr
        (g.data.paint .red)) fs 0 := by
    rw [join_other, join_other]
    exact placed_cons.mp h₂
  obtain ⟨nodes₃, root', hrot, h₃⟩ := rotate_spec hturn
  rw [join_other, join_other] at h₃
  refine ⟨{ tree with nodes := nodes₃, root := root' }, ?_, represents_plug.mpr h₃, rfl, rfl⟩
  simp [liftParent, hgrand, hy, hpaint₁, hpaint₂, hp, sideOf_link hne, hrot]

end Code

end RbTree
end LibHL
