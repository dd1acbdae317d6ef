import LibHL.AvlTree.Invariant
import Mathlib.Tactic.Ring

/-!
# The loop of `avlt_balance`

The loop climbs from a node to the root.  At every node that it reaches both subtrees are
balanced, but their heights may differ by any amount.  Lowering the node makes the heights
of the subtrees it then has differ by less, and the loop stays at the node until they fit;
what is left of the imbalance above it is taken care of by at most two more rounds.
-/

namespace LibHL
namespace AvlTree

open LinkedNode PTree AvltData

variable {K V : Type}

/-! ## Frames up to heights -/

/-- The keys and the values of a tree, from left to right. -/
def entries (t : PTree (AvltData K V)) : List (K × Option V) := t.values.map AvltData.entry

/-- The same node above a position, except for the heights it stores. -/
structure SameFrame (f g : Frame (AvltData K V)) : Prop where
  side : g.side = f.side
  addr : g.addr = f.addr
  entry : g.data.entry = f.data.entry
  sibling : g.sibling = f.sibling

/-- The same nodes above a position, except for the heights they store. -/
def Similar : List (Frame (AvltData K V)) → List (Frame (AvltData K V)) → Prop :=
  List.Forall₂ SameFrame

section Similar

variable {fs fs' fs'' : List (Frame (AvltData K V))}

theorem SameFrame.refl (f : Frame (AvltData K V)) : SameFrame f f := ⟨rfl, rfl, rfl, rfl⟩

theorem SameFrame.trans {f g i : Frame (AvltData K V)} (h₁ : SameFrame f g)
    (h₂ : SameFrame g i) : SameFrame f i :=
  ⟨h₂.side.trans h₁.side, h₂.addr.trans h₁.addr, h₂.entry.trans h₁.entry,
    h₂.sibling.trans h₁.sibling⟩

theorem Similar.refl (fs : List (Frame (AvltData K V))) : Similar fs fs := by
  induction fs with
  | nil => exact List.Forall₂.nil
  | cons f fs ih => exact List.Forall₂.cons (SameFrame.refl f) ih

theorem Similar.trans (h₁ : Similar fs fs') (h₂ : Similar fs' fs'') : Similar fs fs'' := by
  induction h₁ generalizing fs'' with
  | nil => exact h₂
  | cons hf _ ih =>
      obtain _ | ⟨hg, hgs⟩ := h₂
      exact List.Forall₂.cons (hf.trans hg) (ih hgs)

theorem similar_retarget (v : ℤ) (fs : List (Frame (AvltData K V))) :
    Similar fs (retarget v fs) := by
  cases fs with
  | nil => exact List.Forall₂.nil
  | cons f fs => exact List.Forall₂.cons ⟨rfl, rfl, entry_setH _ _ _, rfl⟩ (Similar.refl fs)

theorem Similar.parentOf_eq (h : Similar fs fs') : parentOf fs' = parentOf fs := by
  cases h with
  | nil => rfl
  | cons hf _ => rw [parentOf_cons, parentOf_cons, hf.addr]

/-- All subtrees beside the way up are balanced. -/
def SiblingsBalanced (fs : List (Frame (AvltData K V))) : Prop :=
  ∀ f ∈ fs, Balanced f.sibling

theorem Similar.siblingsBalanced (h : Similar fs fs') (hb : SiblingsBalanced fs) :
    SiblingsBalanced fs' := by
  induction h with
  | nil => exact hb
  | cons hf _ ih =>
      rintro g hg
      rcases List.mem_cons.mp hg with rfl | hmem
      · rw [hf.sibling]
        exact hb _ List.mem_cons_self
      · exact ih (fun f hf => hb f (List.mem_cons_of_mem _ hf)) g hmem

end Similar

theorem entries_join (s : Side) (t u : PTree (AvltData K V)) (a : Addr)
    (d : AvltData K V) : entries (join s t u a d) =
      match s with
      | .left => entries t ++ d.entry :: entries u
      | .right => entries u ++ d.entry :: entries t := by
  cases s <;> simp [entries, join, values]

/-- What is written at a node and below it changes the entries only through itself. -/
theorem entries_join_congr {s : Side} {t t' u u' : PTree (AvltData K V)} {a b : Addr}
    {d e : AvltData K V} (ht : entries t' = entries t) (hu : entries u' = entries u)
    (hd : e.entry = d.entry) : entries (join s t' u' b e) = entries (join s t u a d) := by
  rw [entries_join, entries_join, ht, hu, hd]

theorem entries_rotate (s : Side) (t u v : PTree (AvltData K V)) (a b : Addr)
    (d e : AvltData K V) :
    entries (join s (join s t u a d) v b e) =
      entries (join s t (join s u v b e) a d) := by
  cases s <;> simp [entries, join, values]

theorem entries_plug {t t' : PTree (AvltData K V)} {fs fs' : List (Frame (AvltData K V))}
    (ht : entries t' = entries t) (h : Similar fs fs') :
    entries (plug t' fs') = entries (plug t fs) := by
  induction h generalizing t t' with
  | nil => exact ht
  | cons hf _ ih =>
      rw [plug, plug]
      refine ih ?_
      rw [hf.side, hf.sibling]
      exact entries_join_congr ht rfl hf.entry

/-! ## One rotation -/

/-- The heights stored at a node fit. -/
def Level (d : AvltData K V) : Prop := -1 ≤ d.hl - d.hr ∧ d.hl - d.hr ≤ 1

instance (d : AvltData K V) : Decidable (Level d) :=
  inferInstanceAs (Decidable (_ ∧ _))

theorem level_iff (s : Side) (d : AvltData K V) :
    Level d ↔ d.h s ≤ d.h s.other + 1 ∧ d.h s.other ≤ d.h s + 1 := by
  cases s
  · show _ ↔ d.hl ≤ d.hr + 1 ∧ d.hr ≤ d.hl + 1
    rw [Level]
    omega
  · show _ ↔ d.hr ≤ d.hl + 1 ∧ d.hl ≤ d.hr + 1
    rw [Level]
    omega

/-- The root of a tree that a position is properly inside of is not at the position. -/
theorem rootOf_cons_ne {nodes : Heap (AvltNode K V)} {a : Addr} {n : AvltNode K V}
    {f : Frame (AvltData K V)} {fs : List (Frame (AvltData K V))} {c : Option Addr}
    {rest : Multiset (Addr × AvltNode K V)}
    (hs : nodes.cells = {(a, n)} + (frameCells c (f :: fs) + rest)) :
    rootOf c (f :: fs) ≠ some a := by
  have hmem : ∀ (fs : List (Frame (AvltData K V))) (f : Frame (AvltData K V)) c,
      ∃ b m, rootOf c (f :: fs) = some b ∧ (b, m) ∈ frameCells c (f :: fs) := by
    intro fs
    induction fs with
    | nil =>
        intro f c
        refine ⟨f.addr, link f.side c f.sibling.addr none f.data, rfl, ?_⟩
        rw [frameCells]
        exact Multiset.mem_add.mpr (Or.inl (Multiset.mem_singleton_self _))
    | cons g fs ih =>
        intro f c
        obtain ⟨b, m, hroot, hb⟩ := ih g (some f.addr)
        refine ⟨b, m, hroot, ?_⟩
        rw [frameCells]
        exact Multiset.mem_add.mpr (Or.inr (Multiset.mem_add.mpr (Or.inr hb)))
  obtain ⟨b, m, hroot, hb⟩ := hmem fs f c
  rw [hroot]
  intro heq
  cases heq
  exact Heap.ne_of_cells hs (Multiset.mem_add.mpr (Or.inl hb)) rfl

section Lower

variable {tree : Avlt K V} {nodes : Heap (AvltNode K V)} {fs : List (Frame (AvltData K V))}
  {rest : Multiset (Addr × AvltNode K V)} {s : Side}
  {t inner outer : PTree (AvltData K V)} {x p : Addr} {dx dp : AvltData K V}

/-- What lowering a node does, once its child on the heavy side is as it should be. -/
theorem lower_of_turnChild (hturn : turnChild s tree.nodes x = some nodes)
    (hs : nodes.cells = (join s t (join s inner outer p dp) x dx).cells (parentOf fs) +
      (frameCells (some x) fs + rest))
    (hroot : tree.root = rootOf (some x) fs) :
    ∃ tree' d e fs', lower s tree x =
        some (tree', if Level d then some p else some x) ∧
      At tree' (join s t inner x d) (⟨s, p, e, outer⟩ :: fs') rest ∧ Similar fs fs' ∧
      d = dx.setH s.other (stored inner) ∧ e.entry = dp.entry := by
  obtain ⟨nodes', hrot, h'⟩ := rotate_spec hs
  set d := dx.setH s.other (stored inner)
  set e := dp.setH s d.height
  have hat : nodes'.cells = (join s t inner x d).cells (parentOf (⟨s, p, e, outer⟩ ::
      retarget e.height fs)) + (frameCells (some x) (⟨s, p, e, outer⟩ ::
        retarget e.height fs) + rest) := by
    have hstep := cells_add_frameCells (join s t inner x d) ⟨s, p, e, outer⟩
      (retarget e.height fs)
    rw [addr_join] at hstep
    rw [← add_assoc, hstep, h', parentOf_retarget, add_assoc]
  have hx : nodes' x = some (link s t.addr inner.addr (some p) d) := by
    rw [cells_join, add_assoc] at hat
    exact Heap.eq_some_of_cells hat
  have hnew : (if tree.root = some x then some p else tree.root) =
      rootOf (some p) (retarget e.height fs) := by
    cases fs with
    | nil => rw [hroot, rootOf, if_pos rfl, retarget, rootOf]
    | cons f fs =>
        have hcells : nodes.cells = {(x, link s t.addr (some p) (some f.addr) dx)} +
            (frameCells (some x) (f :: fs) + (t.cells (some x) +
              (join s inner outer p dp).cells (some x) + rest)) := by
          rw [hs, cells_join, addr_join, parentOf_cons]
          abel
        rw [hroot, if_neg (rootOf_cons_ne hcells)]
        rfl
  refine ⟨{ tree with nodes := nodes', root := rootOf (some p) (retarget e.height fs) }, d, e,
    retarget e.height fs, ?_, ⟨?_, ?_⟩, similar_retarget _ fs, rfl, entry_setH _ _ _⟩
  · simp only [lower, hturn, hrot, hx, hnew, Option.bind_eq_bind, Option.bind_some,
      parent_link, data_link]
    rfl
  · rw [addr_join]
    exact hat
  · rw [addr_join]
    rfl

theorem turnChild_of_outer {q : Option Addr} {F : Multiset (Addr × AvltNode K V)}
    (hs : nodes.cells = (join s t (join s inner outer p dp) x dx).cells q + F)
    (hne : dp.h s ≠ dp.h s.other + 1) : turnChild s nodes x = some nodes := by
  rw [cells_join, cells_join, addr_join] at hs
  have hx : nodes x = some (link s t.addr (some p) q dx) :=
    Heap.eq_some_of_cells (hs.trans (add_assoc _ _ _))
  have hp : nodes p = some (link s inner.addr outer.addr (some x) dp) := by
    refine Heap.eq_some_of_cells (s := {(x, link s t.addr (some p) q dx)} +
      (t.cells (some x) + (inner.cells (some p) + outer.cells (some p))) + F) (hs.trans ?_)
    abel
  have hnot : ¬ dp.h s - dp.h s.other = 1 := fun heq => hne (by omega)
  simp [turnChild, hx, hp, hnot]

/-- The first rotation of the double cases. -/
theorem turnChild_of_inner {u v : PTree (AvltData K V)} {m : Addr} {dm : AvltData K V}
    (hs : nodes.cells = (join s t (join s (join s u v m dm) outer p dp) x dx).cells
      (parentOf fs) + (frameCells (some x) fs + rest))
    (heq : dp.h s = dp.h s.other + 1) :
    ∃ nodes' e f d, turnChild s nodes x = some nodes' ∧
      nodes'.cells = (join s t (join s u (join s v outer p e) m f) x d).cells (parentOf fs) +
        (frameCells (some x) fs + rest) ∧
      e = dp.setH s (stored v) ∧ f = dm.setH s.other e.height ∧
      d = dx.setH s.other f.height := by
  have hx : nodes x = some (link s t.addr (some p) (parentOf fs) dx) := by
    rw [cells_join, addr_join] at hs
    exact Heap.eq_some_of_cells (hs.trans (add_assoc _ _ _))
  have hp : nodes p = some (link s (some m) outer.addr (some x) dp) := by
    refine Heap.eq_some_of_cells (s := {(x, link s t.addr (some p) (parentOf fs) dx)} +
      (t.cells (some x) + ((join s u v m dm).cells (some p) + outer.cells (some p))) +
      (frameCells (some x) fs + rest)) (hs.trans ?_)
    rw [cells_join, cells_join, addr_join, addr_join]
    abel
  have hchild : nodes.cells = (join s.other outer (join s.other v u m dm) p dp).cells
      (parentOf (⟨s.other, x, dx, t⟩ :: fs)) +
        (frameCells (some p) (⟨s.other, x, dx, t⟩ :: fs) + rest) := by
    have hstep := cells_add_frameCells (join s (join s u v m dm) outer p dp)
      ⟨s.other, x, dx, t⟩ fs
    rw [addr_join, join_other s (join s _ _ _ _) t] at hstep
    rw [join_other, join_other, ← add_assoc, hstep, add_assoc]
    exact hs
  obtain ⟨nodes', hrot, h'⟩ := rotate_spec hchild
  rw [Side.other_other] at h'
  refine ⟨nodes', _, _, _, ?_, ?_, rfl, rfl, rfl⟩
  · have hsub : dp.h s - dp.h s.other = 1 := by omega
    simp [turnChild, hx, hp, hsub, hrot]
  · have hstep := cells_add_frameCells (join s u (join s v outer p (dp.setH s (stored v))) m
      (dm.setH s.other (dp.setH s (stored v)).height)) ⟨s.other, x, dx.setH s.other
        (dm.setH s.other (dp.setH s (stored v)).height).height, t⟩ fs
    rw [addr_join, join_other s (join s _ _ _ _) t, parentOf_cons] at hstep
    rw [h', join_other, join_other, retarget, parentOf_cons, ← add_assoc]
    dsimp only
    rw [hstep, add_assoc]

end Lower

/-! ## Lowering a node -/

section Lower

variable {tree : Avlt K V} {fs : List (Frame (AvltData K V))}
  {rest : Multiset (Addr × AvltNode K V)} {s : Side}
  {t inner outer : PTree (AvltData K V)} {x p : Addr} {dx dp : AvltData K V}

theorem At.nodes_join {u : PTree (AvltData K V)} (h : At tree (join s t u x dx) fs rest) :
    tree.nodes.cells = (join s t u x dx).cells (parentOf fs) +
      (frameCells (some x) fs + rest) := by
  rw [h.cells, addr_join]

theorem At.root_join {u : PTree (AvltData K V)} (h : At tree (join s t u x dx) fs rest) :
    tree.root = rootOf (some x) fs := by
  rw [h.root, addr_join]

/-- The tree after a node `x` went down on side `s` below `top`: it keeps its subtree `t`
on that side and gets `mid` on the other side. -/
structure Lowered (s : Side) (tree : Avlt K V) (t u : PTree (AvltData K V)) (x : Addr)
    (dx : AvltData K V) (fs : List (Frame (AvltData K V)))
    (rest : Multiset (Addr × AvltNode K V)) (mid sib : PTree (AvltData K V)) : Prop where
  intro ::
  run : ∃ tree' top d e fs', lower s tree x =
      some (tree', if Level d then some top else some x) ∧
    At tree' (join s t mid x d) (⟨s, top, e, sib⟩ :: fs') rest ∧ Similar fs fs' ∧
    d.h s = dx.h s ∧ d.h s.other = mid.height ∧
    entries (join s (join s t mid x d) sib top e) = entries (join s t u x dx)

/-- The single case. -/
theorem lower_outer (h : At tree (join s t (join s inner outer p dp) x dx) fs rest)
    (hinner : Balanced inner) (hne : dp.h s ≠ dp.h s.other + 1) :
    Lowered s tree t (join s inner outer p dp) x dx fs rest inner outer := by
  have hturn := turnChild_of_outer h.nodes_join hne
  obtain ⟨tree', d, e, fs', hrun, hat, hsim, rfl, hentry⟩ :=
    lower_of_turnChild hturn h.nodes_join h.root_join
  refine ⟨tree', p, _, e, fs', hrun, hat, hsim, h_setH_other _ _ _, ?_, ?_⟩
  · rw [h_setH, hinner.stored_eq]
  · rw [entries_rotate]
    exact entries_join_congr rfl (entries_join_congr rfl rfl hentry) (entry_setH _ _ _)

/-- The double case. -/
theorem lower_inner {u v : PTree (AvltData K V)} {m : Addr} {dm : AvltData K V}
    (h : At tree (join s t (join s (join s u v m dm) outer p dp) x dx) fs rest)
    (hu : Balanced u) (hv : Balanced v) (heq : dp.h s = dp.h s.other + 1) :
    ∃ e : AvltData K V, e.h s = v.height ∧ e.h s.other = dp.h s.other ∧
      Lowered s tree t (join s (join s u v m dm) outer p dp) x dx fs rest u
        (join s v outer p e) := by
  obtain ⟨nodes', e, f, d, hturn, hcells, rfl, rfl, rfl⟩ :=
    turnChild_of_inner h.nodes_join heq
  obtain ⟨tree', d, e, fs', hrun, hat, hsim, rfl, hentry⟩ :=
    lower_of_turnChild hturn hcells h.root_join
  refine ⟨_, ?_, h_other_setH _ _ _, tree', m, _, e, fs', hrun, hat, hsim, ?_, ?_, ?_⟩
  · rw [h_setH, hv.stored_eq]
  · rw [h_setH_other, h_setH_other]
  · rw [h_setH, hu.stored_eq]
  · rw [entries_rotate]
    refine entries_join_congr rfl ?_ ?_
    · rw [entries_rotate]
      refine entries_join_congr rfl (entries_join_congr rfl rfl (entry_setH _ _ _)) ?_
      rw [hentry, entry_setH]
    · rw [entry_setH, entry_setH]

/-- How the heights fit after lowering a node: only if `mid` is low does the top come out
of balance again, and then `sib` leans to neither side. -/
structure Fits (s : Side) (u mid sib : PTree (AvltData K V)) : Prop where
  balanced_mid : Balanced mid
  balanced_sib : Balanced sib
  height_sib : sib.height + 1 = u.height
  height_mid : mid.height + 1 ≤ u.height
  size_mid : mid.size < u.size
  low : u.height ≤ mid.height + 2 ∨ u.height = mid.height + 3 ∧
    ∃ a b q dq, sib = join s a b q dq ∧ a.height = b.height

theorem lower_spec {u : PTree (AvltData K V)} (h : At tree (join s t u x dx) fs rest)
    (hu : Balanced u) (hlow : t.height + 2 ≤ u.height) :
    ∃ mid sib, Lowered s tree t u x dx fs rest mid sib ∧ Fits s u mid sib := by
  obtain ⟨inner, outer, p, dp, rfl⟩ := exists_join_of_height s (t := u) (by omega)
  obtain ⟨hinner, houter, hs, hother, h₁, h₂⟩ := balanced_join.mp hu
  rw [height_join] at hlow
  by_cases heq : dp.h s = dp.h s.other + 1
  · obtain ⟨v, w, m, dm, rfl⟩ := exists_join_of_height s (t := inner) (by omega)
    obtain ⟨hv, hw, -, -, h₃, h₄⟩ := balanced_join.mp hinner
    obtain ⟨e, he, heother, hlowered⟩ := lower_inner h hv hw heq
    rw [height_join] at hs h₁ h₂
    refine ⟨v, _, hlowered, hv, ?_, ?_, ?_, ?_, ?_⟩
    · refine balanced_join.mpr ⟨hw, houter, he, heother.trans hother, ?_, ?_⟩ <;> omega
    · rw [height_join, height_join, height_join]
      omega
    · rw [height_join, height_join]
      omega
    · rw [size_join, size_join]
      omega
    · rw [height_join, height_join]
      by_cases hlowv : v.height < w.height
      · refine Or.inr ⟨by omega, w, outer, p, e, rfl, by omega⟩
      · exact Or.inl (by omega)
  · refine ⟨inner, outer, lower_outer h hinner heq, hinner, houter, ?_, ?_, ?_, Or.inl ?_⟩
    · rw [height_join]
      omega
    · rw [height_join]
      omega
    · rw [size_join]
      omega
    · rw [height_join]
      omega

end Lower

/-! ## Rounds of the loop -/

/-- The loop gets from one node to another in `k` rounds. -/
def Rounds (k : ℕ) (tree : Avlt K V) (node : Option Addr) (tree' : Avlt K V)
    (node' : Option Addr) : Prop :=
  ∀ fuel, balanceLoop (fuel + k) tree node = balanceLoop fuel tree' node'

section Rounds

variable {tree tree₁ tree₂ : Avlt K V} {fs : List (Frame (AvltData K V))}
  {rest : Multiset (Addr × AvltNode K V)} {s : Side}
  {t u : PTree (AvltData K V)} {x : Addr} {d : AvltData K V}

theorem Rounds.refl (tree : Avlt K V) (node : Option Addr) : Rounds 0 tree node tree node :=
  fun _ => rfl

theorem Rounds.trans {k j : ℕ} {a b c : Option Addr} (h₁ : Rounds k tree a tree₁ b)
    (h₂ : Rounds j tree₁ b tree₂ c) : Rounds (j + k) tree a tree₂ c := by
  intro fuel
  rw [← Nat.add_assoc, h₁, h₂]

theorem Rounds.of_round {b : Option Addr} (h : balanceRound tree x = some (tree₁, b)) :
    Rounds 1 tree (some x) tree₁ b := by
  intro fuel
  simp [balanceLoop, h]

theorem refreshHeight_of_cells {q : Option Addr} {F : Multiset (Addr × AvltNode K V)}
    {nodes : Heap (AvltNode K V)} (hs : nodes.cells = (join s t u x d).cells q + F) :
    ∃ nodes', refreshHeight s nodes x = some nodes' ∧
      nodes'.cells = (join s t u x (d.setH s (stored t))).cells q + F := by
  rw [cells_join, add_assoc] at hs
  have hx := Heap.eq_some_of_cells hs
  have ht : nodes.cells = t.cells (some x) +
      ({(x, link s t.addr u.addr q d)} + (u.cells (some x) + F)) := by
    rw [hs]
    abel
  have hstored := storedHeight_of_cells ht
  obtain ⟨nodes', hmod, h'⟩ := Heap.modify_of_cells (·.mapData (·.setH s (stored t))) hs
  refine ⟨nodes', ?_, ?_⟩
  · simp [refreshHeight, hx, hstored, hmod]
  · rw [h', mapData_link, cells_join]
    exact (add_assoc _ _ _).symm

/-- The beginning of a round: the node takes the heights from its children. -/
theorem refresh_spec {q : Option Addr} {F : Multiset (Addr × AvltNode K V)}
    {nodes : Heap (AvltNode K V)} (hs : nodes.cells = (join s t u x d).cells q + F) :
    ∃ nodes₁ nodes₂ d', refreshHeight .left nodes x = some nodes₁ ∧
      refreshHeight .right nodes₁ x = some nodes₂ ∧
      nodes₂.cells = (join s t u x d').cells q + F ∧ d'.h s = stored t ∧
      d'.h s.other = stored u ∧ d'.entry = d.entry := by
  cases s with
  | left =>
      obtain ⟨nodes₁, hrun₁, h₁⟩ := refreshHeight_of_cells hs
      obtain ⟨nodes₂, hrun₂, h₂⟩ := refreshHeight_of_cells (s := .right) (t := u) (u := t) h₁
      exact ⟨nodes₁, nodes₂, _, hrun₁, hrun₂, h₂, rfl, rfl, rfl⟩
  | right =>
      obtain ⟨nodes₁, hrun₁, h₁⟩ := refreshHeight_of_cells (s := .left) (t := u) (u := t) hs
      obtain ⟨nodes₂, hrun₂, h₂⟩ := refreshHeight_of_cells (s := .right) (t := t) (u := u) h₁
      exact ⟨nodes₁, nodes₂, _, hrun₁, hrun₂, h₂, rfl, rfl, rfl⟩

theorem balanceRound_of_level (h : At tree (join s t u x d) fs rest) (ht : Balanced t)
    (hu : Balanced u) (h₁ : t.height ≤ u.height + 1) (h₂ : u.height ≤ t.height + 1) :
    ∃ tree' d', balanceRound tree x = some (tree', parentOf fs) ∧
      At tree' (join s t u x d') fs rest ∧ Balanced (join s t u x d') ∧
      d'.entry = d.entry := by
  obtain ⟨nodes₁, nodes₂, d', hrun₁, hrun₂, hcells, hs, hother, hentry⟩ :=
    refresh_spec h.nodes_join
  rw [ht.stored_eq] at hs
  rw [hu.stored_eq] at hother
  have hlevel : Level d' := (level_iff s d').mpr ⟨by omega, by omega⟩
  have hx : nodes₂ x = some (link s t.addr u.addr (parentOf fs) d') := by
    rw [cells_join, add_assoc] at hcells
    exact Heap.eq_some_of_cells hcells
  refine ⟨{ tree with nodes := nodes₂ }, d', ?_, ⟨?_, ?_⟩, ?_, hentry⟩
  · have hlow : ¬ d'.hl - d'.hr ≤ -2 := by
      have := hlevel.1
      omega
    have hhigh : ¬ 2 ≤ d'.hl - d'.hr := by
      have := hlevel.2
      omega
    simp only [balanceRound, hrun₁, hrun₂, hx, Option.bind_eq_bind, Option.bind_some,
      data_link, parent_link, if_neg hlow, if_neg hhigh]
  · rw [addr_join]
    exact hcells
  · rw [addr_join]
    exact h.root_join
  · exact balanced_join.mpr ⟨ht, hu, hs, hother, h₁, h₂⟩

theorem balanceRound_of_low (h : At tree (join s t u x d) fs rest) (ht : Balanced t)
    (hu : Balanced u) (hlow : t.height + 2 ≤ u.height) :
    ∃ tree' d', balanceRound tree x = lower s tree' x ∧
      At tree' (join s t u x d') fs rest ∧ d'.h s = t.height ∧ d'.entry = d.entry := by
  obtain ⟨nodes₁, nodes₂, d', hrun₁, hrun₂, hcells, hs, hother, hentry⟩ :=
    refresh_spec h.nodes_join
  rw [ht.stored_eq] at hs
  rw [hu.stored_eq] at hother
  have hx : nodes₂ x = some (link s t.addr u.addr (parentOf fs) d') := by
    rw [cells_join, add_assoc] at hcells
    exact Heap.eq_some_of_cells hcells
  refine ⟨{ tree with nodes := nodes₂ }, d', ?_, ⟨?_, ?_⟩, hs, hentry⟩
  · cases s with
    | left =>
        have hfactor : d'.hl - d'.hr ≤ -2 := by
          have hl : d'.hl = t.height := hs
          have hr : d'.hr = u.height := hother
          omega
        simp only [balanceRound, hrun₁, hrun₂, hx, Option.bind_eq_bind, Option.bind_some,
          data_link, if_pos hfactor]
    | right =>
        have hr : d'.hr = t.height := hs
        have hl : d'.hl = u.height := hother
        have hhigh : 2 ≤ d'.hl - d'.hr := by omega
        have hnot : ¬ d'.hl - d'.hr ≤ -2 := by omega
        simp only [balanceRound, hrun₁, hrun₂, hx, Option.bind_eq_bind, Option.bind_some,
          data_link, if_neg hnot, if_pos hhigh]
  · rw [addr_join]
    exact hcells
  · rw [addr_join]
    exact h.root_join

theorem at_cons {f : Frame (AvltData K V)} :
    At tree t (f :: fs) rest ↔ At tree (join f.side t f.sibling f.addr f.data) fs rest := by
  rw [at_iff_placed, at_iff_placed, placed_cons]

/-- The loop gets a node whose subtrees are balanced into a balanced subtree, and leaves it
upwards.  The height changes by what a level node would have, or one less. -/
structure Settles (tree : Avlt K V) (T : PTree (AvltData K V)) (node : Option Addr)
    (fs : List (Frame (AvltData K V))) (rest : Multiset (Addr × AvltNode K V)) : Prop where
  intro ::
  run : ∃ k tree' T' fs', k ≤ 3 * T.size ∧ Rounds k tree node tree' (parentOf fs) ∧
    At tree' T' fs' rest ∧ Similar fs fs' ∧ Balanced T' ∧ entries T' = entries T ∧
    T'.height ≤ T.height ∧ T.height ≤ T'.height + 1

theorem settles_of_level (h : At tree (join s t u x d) fs rest) (ht : Balanced t)
    (hu : Balanced u) (h₁ : t.height ≤ u.height + 1) (h₂ : u.height ≤ t.height + 1) :
    ∃ tree' d', Rounds 1 tree (some x) tree' (parentOf fs) ∧
      At tree' (join s t u x d') fs rest ∧ Balanced (join s t u x d') ∧
      d'.entry = d.entry := by
  obtain ⟨tree', d', hround, hat, hbal, hentry⟩ := balanceRound_of_level h ht hu h₁ h₂
  exact ⟨tree', d', Rounds.of_round hround, hat, hbal, hentry⟩

/-- The last rounds: the node that came up is level, or it goes down once. -/
theorem settle_top (h : At tree (join s t u x d) fs rest) (ht : Balanced t) (hu : Balanced u)
    (h₁ : t.height ≤ u.height + 1)
    (h₂ : u.height ≤ t.height + 1 ∨ u.height = t.height + 2 ∧
      ∃ a b q dq, u = join s a b q dq ∧ a.height = b.height) :
    ∃ k tree' T' fs', k ≤ 2 ∧ Rounds k tree (some x) tree' (parentOf fs) ∧
      At tree' T' fs' rest ∧ Similar fs fs' ∧ Balanced T' ∧
      entries T' = entries (join s t u x d) ∧ u.height + 1 ≤ T'.height ∧
      T'.height ≤ u.height + 2 := by
  rcases h₂ with hlevel | ⟨hlow, a, b, q, dq, rfl, hab⟩
  · obtain ⟨tree', d', hrounds, hat, hbal, hentry⟩ := settles_of_level h ht hu h₁ hlevel
    refine ⟨1, tree', _, fs, by omega, hrounds, hat, Similar.refl fs, hbal,
      entries_join_congr rfl rfl hentry, ?_, ?_⟩
    · rw [height_join]
      omega
    · rw [height_join]
      omega
  · obtain ⟨ha, hb, hs, hother, -, -⟩ := balanced_join.mp hu
    rw [height_join] at hlow
    obtain ⟨tree₁, d₁, hround, hat₁, hd₁, hentry₁⟩ :=
      balanceRound_of_low h ht hu (by rw [height_join]; omega)
    obtain ⟨tree₂, top, d₂, e, fs₂, hrun, hat₂, hsim₂, hd₂, hd₂', hentry₂⟩ :=
      (lower_outer hat₁ ha (by omega)).run
    have hlevel : Level d₂ := (level_iff s d₂).mpr ⟨by omega, by omega⟩
    rw [if_pos hlevel] at hrun
    have hbal : Balanced (join s t a x d₂) :=
      balanced_join.mpr ⟨ht, ha, hd₂.trans hd₁, hd₂', by omega, by omega⟩
    have hheight : (join s t a x d₂).height = a.height + 1 := by
      rw [height_join]
      omega
    have hup : At tree₂ (join s (join s t a x d₂) b top e) fs₂ rest := at_cons.mp hat₂
    obtain ⟨tree₃, d₃, hrounds, hat₃, hbal₃, hentry₃⟩ :=
      settles_of_level hup hbal hb (by omega) (by omega)
    refine ⟨2, tree₃, _, fs₂, le_refl 2, ?_, hat₃, hsim₂, hbal₃, ?_, ?_, ?_⟩
    · rw [← hsim₂.parentOf_eq]
      exact (Rounds.of_round (hround.trans hrun)).trans hrounds
    · rw [entries_join_congr rfl rfl hentry₃, hentry₂]
      exact entries_join_congr rfl rfl hentry₁
    · rw [height_join, height_join, height_join]
      omega
    · rw [height_join, height_join, height_join]
      omega

theorem settle_low {n : ℕ} (ih : ∀ (t u : PTree (AvltData K V)) (d : AvltData K V)
      (tree : Avlt K V) fs, t.size + u.size < n → At tree (join s t u x d) fs rest →
      Balanced t → Balanced u → Settles tree (join s t u x d) (some x) fs rest)
    (hn : t.size + u.size < n + 1) (h : At tree (join s t u x d) fs rest) (ht : Balanced t)
    (hu : Balanced u) (hlow : t.height + 2 ≤ u.height) :
    Settles tree (join s t u x d) (some x) fs rest := by
  obtain ⟨tree₁, d₁, hround, hat₁, hd₁, hentry₁⟩ := balanceRound_of_low h ht hu hlow
  obtain ⟨mid, sib, hlowered, hfits⟩ := lower_spec hat₁ hu hlow
  obtain ⟨tree₂, top, d₂, e, fs₂, hrun, hat₂, hsim₂, hd₂, hd₂', hentry₂⟩ := hlowered.run
  -- The node that went down settles, unless it is level already.
  have hmid : Settles tree₂ (join s t mid x d₂) (if Level d₂ then some top else some x)
      (⟨s, top, e, sib⟩ :: fs₂) rest := by
    by_cases hlevel : Level d₂
    · rw [if_pos hlevel]
      obtain ⟨h₁, h₂⟩ := (level_iff s d₂).mp hlevel
      refine ⟨0, tree₂, _, _, Nat.zero_le _, Rounds.refl _ _, hat₂, Similar.refl _, ?_, rfl,
        le_refl _, Nat.le_succ _⟩
      exact balanced_join.mpr
        ⟨ht, hfits.balanced_mid, hd₂.trans hd₁, hd₂', by omega, by omega⟩
    · rw [if_neg hlevel]
      have hsize := hfits.size_mid
      exact ih t mid d₂ tree₂ _ (by omega) hat₂ ht hfits.balanced_mid
  obtain ⟨k, tree₃, X, fs₃, hk, hrounds, hat₃, hsim₃, hbal, hentry₃, hle, hge⟩ := hmid.run
  obtain ⟨g, fs₄, hg, hsim₄, rfl⟩ := List.forall₂_cons_left_iff.mp hsim₃
  have hup : At tree₃ (join s X sib top g.data) fs₄ rest := by
    have hcons := at_cons.mp hat₃
    rw [hg.side, hg.addr, hg.sibling] at hcons
    exact hcons
  have hsib := hfits.height_sib
  have hmid := hfits.height_mid
  rw [height_join] at hle hge
  obtain ⟨j, tree₅, T', fs₅, hj, hrounds', hat₅, hsim₅, hbal₅, hentry₅, hlo, hhi⟩ :=
    settle_top hup hbal hfits.balanced_sib (by omega) (by
      rcases hfits.low with hnear | ⟨hfar, hlean⟩
      · exact Or.inl (by omega)
      · by_cases hlevel : sib.height ≤ X.height + 1
        · exact Or.inl hlevel
        · exact Or.inr ⟨by omega, hlean⟩)
  have hsim : Similar fs fs₅ := (hsim₂.trans hsim₄).trans hsim₅
  refine ⟨j + k + 1, tree₅, T', fs₅, ?_, ?_, hat₅, hsim, hbal₅, ?_, ?_, ?_⟩
  · have hsize := hfits.size_mid
    rw [size_join] at hk ⊢
    omega
  · rw [← (hsim₂.trans hsim₄).parentOf_eq]
    exact (Rounds.of_round (hround.trans hrun)).trans (hrounds.trans hrounds')
  · rw [hentry₅, entries_join_congr hentry₃ rfl hg.entry, hentry₂]
    exact entries_join_congr rfl rfl hentry₁
  · rw [height_join]
    omega
  · rw [height_join]
    omega

theorem settle : ∀ n (s : Side) (t u : PTree (AvltData K V)) (d : AvltData K V)
    (tree : Avlt K V) (fs : List (Frame (AvltData K V))), t.size + u.size < n →
    At tree (join s t u x d) fs rest → Balanced t → Balanced u →
    Settles tree (join s t u x d) (some x) fs rest := by
  intro n
  induction n with
  | zero => exact fun _ _ _ _ _ _ hn => absurd hn (Nat.not_lt_zero _)
  | succ n ih =>
      intro s t u d tree fs hn h ht hu
      by_cases hlow : t.height + 2 ≤ u.height
      · exact settle_low (ih s) hn h ht hu hlow
      by_cases hhigh : u.height + 2 ≤ t.height
      · have h' : At tree (join s.other u t x d) fs rest := by
          rw [join_other]
          exact h
        have hn' : u.size + t.size < n + 1 := by omega
        have hsettles := settle_low (ih s.other) hn' h' hu ht hhigh
        rw [join_other] at hsettles
        exact hsettles
      · obtain ⟨tree', d', hrounds, hat, hbal, hentry⟩ :=
          settles_of_level h ht hu (by omega) (by omega)
        refine ⟨1, tree', _, fs, ?_, hrounds, hat, Similar.refl fs, hbal,
          entries_join_congr rfl rfl hentry, ?_, ?_⟩
        · rw [size_join]
          omega
        · rw [height_join, height_join]
        · rw [height_join, height_join]
          omega

/-! ## The whole loop -/

theorem length_entries (t : PTree (AvltData K V)) : (entries t).length = t.size := by
  rw [entries, List.length_map]
  induction t with
  | leaf => rfl
  | node l a d r ihl ihr =>
      rw [values, List.length_append, List.length_cons, ihl, ihr, PTree.size]
      rfl

theorem Similar.length_eq {fs fs' : List (Frame (AvltData K V))} (h : Similar fs fs') :
    fs'.length = fs.length :=
  (List.Forall₂.length_eq h).symm

theorem size_le_plug (t : PTree (AvltData K V)) (fs : List (Frame (AvltData K V))) :
    t.size ≤ (plug t fs).size := by
  induction fs generalizing t with
  | nil => exact le_refl _
  | cons f fs ih =>
      refine le_trans ?_ (ih _)
      rw [size_join]
      omega

/-- The loop runs from a node whose subtrees are balanced up to the root, settling every
node on the way. -/
theorem climb : ∀ (n : ℕ) (fs : List (Frame (AvltData K V))) (s : Side) (t u : PTree _)
    (x : Addr) (d : AvltData K V) (tree : Avlt K V), fs.length = n →
    At tree (join s t u x d) fs rest → Balanced t → Balanced u → SiblingsBalanced fs →
    ∃ k tree' T, k ≤ (n + 1) * (3 * (plug (join s t u x d) fs).size) ∧
      Rounds k tree (some x) tree' none ∧ At tree' T [] rest ∧ Balanced T ∧
      entries T = entries (plug (join s t u x d) fs) := by
  intro n
  induction n with
  | zero =>
      intro fs s t u x d tree hlen h ht hu _
      obtain rfl := List.length_eq_zero_iff.mp hlen
      obtain ⟨k, tree', T, fs', hk, hrounds, hat, hsim, hbal, hentry, -, -⟩ :=
        (settle _ s t u d tree [] (Nat.lt_succ_self _) h ht hu).run
      cases hsim
      refine ⟨k, tree', T, ?_, hrounds, hat, hbal, hentry⟩
      rw [Nat.zero_add, Nat.one_mul]
      exact hk
  | succ n ih =>
      intro fs s t u x d tree hlen h ht hu hsib
      obtain ⟨k, tree₁, T₁, fs₁, hk, hrounds, hat, hsim, hbal, hentry, -, -⟩ :=
        (settle _ s t u d tree fs (Nat.lt_succ_self _) h ht hu).run
      have hsib₁ := hsim.siblingsBalanced hsib
      have hentries := entries_plug hentry hsim
      cases fs₁ with
      | nil => exact absurd (hsim.length_eq.trans hlen) nofun
      | cons f fs₁ =>
          have hlen₁ : fs₁.length = n := by
            have hcons := hsim.length_eq.trans hlen
            rw [List.length_cons] at hcons
            omega
          obtain ⟨j, tree', T, hj, hrounds', hat', hbal', hentry'⟩ :=
            ih fs₁ f.side T₁ f.sibling f.addr f.data tree₁ hlen₁ (at_cons.mp hat) hbal
              (hsib₁ f List.mem_cons_self) fun g hg => hsib₁ g (List.mem_cons_of_mem f hg)
          have hplug : plug (join f.side T₁ f.sibling f.addr f.data) fs₁ =
              plug T₁ (f :: fs₁) := rfl
          rw [hplug] at hj hentry'
          have hsize : (plug T₁ (f :: fs₁)).size = (plug (join s t u x d) fs).size := by
            rw [← length_entries, ← length_entries, hentries]
          refine ⟨j + k, tree', T, ?_, ?_, hat', hbal', hentry'.trans hentries⟩
          · have hle := size_le_plug (join s t u x d) fs
            rw [hsize] at hj
            rw [Nat.add_mul (n + 1) 1, Nat.one_mul]
            exact Nat.add_le_add hj (hk.trans (Nat.mul_le_mul_left 3 hle))
          · rw [← hsim.parentOf_eq, parentOf_cons] at hrounds
            exact hrounds.trans hrounds'

/-- `avlt_balance` ends, whatever the heights above the node are, and the whole tree is
balanced afterwards. -/
theorem avltBalance_spec {fs : List (Frame (AvltData K V))}
    (h : At tree (join s t u x d) fs rest) (ht : Balanced t) (hu : Balanced u)
    (hsib : SiblingsBalanced fs) :
    ∃ tree' T, avltBalance tree x = some tree' ∧ At tree' T [] rest ∧ Balanced T ∧
      entries T = entries (plug (join s t u x d) fs) := by
  obtain ⟨k, tree', T, hk, hrounds, hat, hbal, hentry⟩ :=
    climb fs.length fs s t u x d tree rfl h ht hu hsib
  refine ⟨tree', T, ?_, hat, hbal, hentry⟩
  have hcells : tree.nodes.cells = (plug (join s t u x d) fs).cells none + rest := by
    rw [cells_plug, add_assoc]
    exact h.cells
  have hsize := size_le_brk hcells
  have hframes : fs.length ≤ tree.nodes.brk := by
    refine frames_lt_brk (c := (join s t u x d).addr) fs
      (s := (join s t u x d).cells (parentOf fs) + rest) (h.cells.trans ?_)
    abel
  have hbound : k ≤ 4 * (tree.nodes.brk + 1) ^ 2 := by
    calc k ≤ (fs.length + 1) * (3 * (plug (join s t u x d) fs).size) := hk
      _ ≤ (tree.nodes.brk + 1) * (4 * (tree.nodes.brk + 1)) :=
        Nat.mul_le_mul (Nat.succ_le_succ hframes)
          (Nat.mul_le_mul (by decide) (hsize.trans (Nat.le_succ _)))
      _ = 4 * (tree.nodes.brk + 1) ^ 2 := by ring
  obtain ⟨fuel, hfuel⟩ := Nat.exists_eq_add_of_le' hbound
  rw [avltBalance, hfuel, hrounds]
  cases fuel <;> rfl

end Rounds

end AvlTree
end LibHL
