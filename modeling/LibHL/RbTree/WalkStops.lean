import LibHL.RbTree.TwoChildren
import LibHL.RbTree.WalkSteps

/-!
# Stopping a walk

The zero that says that the walk is to stop goes up one level only: the parent returns its
count, which is not zero, and the node above that goes on if anything is left to do there.
So a walk stops at once exactly if the parent is reached through right children only; and its
count is right only if the walk that returned zero made a single call that was not counted.
-/

namespace LibHL
namespace RbTree

open LinkedNode PTree RbtData

variable {V σ : Type}

/-! ## Removing the node where the walk stops -/

/-- The nodes above a place are where they were, apart from the pointers on the way. -/
def Above (nodes : Heap (RbtNode V)) (fs : List (Frame (RbtData V))) : Prop :=
  ∀ f ∈ fs, ∃ c p, nodes f.addr = some (link f.side c f.sibling.addr p f.data)

section Removal

variable {tree : Rbt V} {nodes : Heap (RbtNode V)} {l r u v : PTree (RbtData V)}
  {fs path : List (Frame (RbtData V))} {x : Addr} {d : RbtData V} {side : Side}

theorem above_of_cells {c : Option Addr} {F : Multiset (Addr × RbtNode V)}
    (path : List (Frame (RbtData V))) (h : nodes.cells = F + frameCells c (path ++ fs)) : Above nodes fs := by
  intro f hf
  obtain ⟨gs, hs, rfl⟩ := List.append_of_mem hf
  have hmem := mem_frameCells c (path ++ gs) f hs
  rw [List.append_assoc] at hmem
  have hcell : (f.addr, link f.side (rootOf c (path ++ gs)) f.sibling.addr (parentOf hs) f.data) ∈
      nodes.cells := by
    rw [h]
    exact Multiset.mem_add.mpr (Or.inr hmem)
  exact ⟨_, _, Heap.mem_cells.mp hcell⟩

theorem above_of_placed {t : PTree (RbtData V)} {root : Option Addr}
    (h : Placed nodes root t fs 0) : Above nodes fs := by
  have hcells := h.cells
  rw [add_zero] at hcells
  exact above_of_cells [] hcells

theorem height_le_one {n : ℕ} (h : Coloured RbtData.color n (join side v .leaf x d)) :
    v.height + (colorAt v).weight ≤ 1 := by
  obtain ⟨m, -, hv, hleaf, -⟩ := coloured_join.mp h
  obtain rfl := coloured_leaf.mp hleaf
  exact hv.height_le

theorem above_of_handOver {run : Option (Rbt V × RbtAnswer V)} {tree' : Rbt V} {wantsValue : Bool}
    {value : Option V} (h : run = some (handOver tree' wantsValue value))
    (habove : Above tree'.nodes fs) :
    ∃ tree' answer, run = some (tree', answer) ∧ Above tree'.nodes fs := by
  obtain ⟨hnodes, -⟩ := handOver_fields tree' wantsValue value
  exact ⟨(handOver tree' wantsValue value).1, (handOver tree' wantsValue value).2, h,
    hnodes ▸ habove⟩

theorem height_pos (hv : v ≠ .leaf) : 0 < v.height := by
  cases v with
  | leaf => exact absurd rfl hv
  | node => exact Nat.succ_pos _

theorem removeInner_above (mem : Bool) (h : Represents tree (plug (.node l x d r) fs))
    (hwhole : Whole (plug (.node l x d r) fs)) (hl : l ≠ .leaf) (hr : r ≠ .leaf) :
    ∃ tree' answer, removeInner mem tree x false = some (tree', answer) ∧
      Above tree'.nodes fs := by
  obtain ⟨s, hs⟩ : ∃ s, neighbourSide tree.prevnext = s := ⟨_, rfl⟩
  obtain ⟨t, u, hjoin⟩ := node_eq_join l x d r s
  have ht := ne_leaf_of_sides hl hr hjoin
  rw [hjoin] at h hwhole
  have hplaced := represents_plug.mp h
  cases mem with
  | false => exact ⟨_, _, removeInner_no_memory h hs ht false, above_of_placed hplaced⟩
  | true =>
      obtain ⟨y, w, e, path, hnear, rfl, hside⟩ := findNear_spec hplaced ht
      have hlen : e.key.length = e.klen :=
        (whole_join.mp (whole_plug (whole_join.mp (whole_plug hwhole)).1)).2.1
      obtain ⟨nodes', hrun, hcells⟩ := removeInner_spec hplaced hs hnear rfl hside hlen false
      rw [add_zero, List.append_cons] at hcells
      exact above_of_handOver hrun (above_of_cells _ hcells)

theorem removeUpper_above (side : Side) (h : Represents tree (plug (join side v .leaf x d) fs))
    (hrb : RedBlack RbtData.color (plug (join side v .leaf x d) fs)) (hv : v ≠ .leaf) :
    ∃ tree' answer, removeUpper tree x false = some (tree', answer) ∧
      Above tree'.nodes fs := by
  obtain ⟨n, hcol, -, -⟩ := redBlack_plug.mp hrb
  have hheight := height_le_one hcol
  have hpos := height_pos hv
  have hred : colorAt v = .red := by
    cases hc : colorAt v with
    | red => rfl
    | black =>
        rw [hc, Color.weight] at hheight
        omega
  obtain ⟨nodes', hrun, hcells⟩ :=
    removeUpper_spec (represents_plug.mp h) hv (fun _ => hred) false
  rw [add_zero] at hcells
  exact above_of_handOver hrun (above_of_cells [] hcells)

theorem removeLeaf_above (h : Represents tree (plug (.node .leaf x d .leaf) fs)) :
    ∃ tree' answer, removeLeaf tree x false = some (tree', answer) ∧ Above tree'.nodes fs := by
  obtain ⟨tree', answer, hrun, hcells, -⟩ := removeLeaf_spec (represents_plug.mp h) false
  refine ⟨tree', answer, hrun, ?_⟩
  rw [add_zero, ← zero_add (frameCells _ _)] at hcells
  exact above_of_cells [] hcells

/-- The node where the walk stops can be removed, and the nodes above it stay. -/
theorem removeVisited_above (c : Comparator (List UInt8)) (mem : Bool) {s : Walk V σ}
    (h : Represents s.tree (plug (.node l x d r) fs))
    (hrb : RedBlack RbtData.color (plug (.node l x d r) fs))
    (hwhole : Whole (plug (.node l x d r) fs))
    (hord : Ordered c RbtData.key (plug (.node l x d r) fs)) :
    ∃ s', removeVisited c.cmp mem s x = some s' ∧ s'.calls = s.calls ∧
      Above s'.tree.nodes fs := by
  have hnode := (represents_plug.mp h).node_eq (s := .left)
  have hbytes := bytes_of_length (whole_join (s := .left).mp (whole_plug hwhole)).2.1
  have hfound := rbtRemove_found c h hwhole hord (c.self_eq_zero d.key) mem false
  have hremove : ∃ tree' answer, rbtRemove c.cmp mem s.tree d.key false = some (tree', answer) ∧
      Above tree'.nodes fs := by
    cases l with
    | leaf =>
        cases r with
        | leaf => exact hfound ▸ removeLeaf_above h
        | node rl y e rr => exact hfound ▸ removeUpper_above .right h hrb nofun
    | node ll y e lr =>
        cases r with
        | leaf => exact hfound ▸ removeUpper_above .left h hrb nofun
        | node rl z g rr => exact hfound ▸ removeInner_above mem h hwhole nofun nofun
  obtain ⟨tree', answer, hrun, habove⟩ := hremove
  refine ⟨{ s with tree := tree' }, ?_, rfl, habove⟩
  simp only [removeVisited, hnode, data_link, hbytes, hrun, Option.bind_eq_bind, Option.bind_some]

end Removal

/-! ## The way of a stop -/

/-- The node above a place was to be removed, so that its walk was left to that of its child. -/
def HandedDown (made : List (Place (RbtData V) × ℤ)) (p : Place (RbtData V)) : Prop :=
  ∃ c ∈ made, c.2 = -1 ∧ ∃ f, p.above = f :: c.1.above

/-- The frames above the subtree whose walk returns the zero of a stop at `p`. -/
def StopFrames (made : List (Place (RbtData V) × ℤ)) (p : Place (RbtData V))
    (e : List (Frame (RbtData V))) : Prop :=
  ¬ HandedDown made p ∧ p.above = e ∨ HandedDown made p ∧ ∃ f, p.above = f :: e

section StopFrames

variable {cb : σ → List UInt8 × ℕ × Option V → σ × ℤ} {sorted : Bool} {user : σ}
  {made : List (Place (RbtData V) × ℤ)} {p : Place (RbtData V)} {e e' : List (Frame (RbtData V))}
  {side : Side} {t u : PTree (RbtData V)} {a : Addr} {x : RbtData V}
  {pre r : Asked (Place (RbtData V)) ℤ σ}

theorem exists_stopFrames (made : List (Place (RbtData V) × ℤ)) (p : Place (RbtData V)) :
    ∃ e, StopFrames made p e := by
  by_cases h : HandedDown made p
  · have hdown := h
    obtain ⟨c, -, -, f, hf⟩ := h
    exact ⟨c.1.above, Or.inr ⟨hdown, f, hf⟩⟩
  · exact ⟨p.above, Or.inl ⟨h, rfl⟩⟩

theorem not_handedDown_of_root (hp : p.above = []) : ¬ HandedDown made p := by
  rintro ⟨c, -, -, f, hf⟩
  rw [hp] at hf
  cases hf

/-- Below the root, only the answer for the root matters. -/
theorem handedDown_child (hp : p.above = []) (f : Frame (RbtData V)) :
    HandedDown (pre.made ++ (r.rename (Place.below f)).made) (Place.below f p) ↔
      RootRemoved pre.made := by
  have habove : (Place.below f p).above = [f] := by
    rw [Place.above_below, hp, List.nil_append]
  rw [HandedDown, habove]
  constructor
  · rintro ⟨c, hc, hcode, g, hg⟩
    have hnil : c.1.above = [] := (List.cons.inj hg).2.symm
    rcases List.mem_append.mp hc with hmem | hmem
    · exact ⟨c, hmem, hnil, hcode⟩
    · exact absurd ⟨c, hmem, hnil, hcode⟩ (not_rootRemoved_rename f)
  · rintro ⟨c, hc, hnil, hcode⟩
    exact ⟨c, List.mem_append_left _ hc, hcode, f, congrArg (f :: ·) hnil.symm⟩

/-- Further down, only the answers in the subtree matter. -/
theorem handedDown_inside (hpre : answers cb sorted user (earlier sorted side t u a x) = pre)
    (hp : p.above ≠ []) :
    HandedDown (pre.made ++ (r.rename (Place.below ⟨side, a, x, u⟩)).made)
      (Place.below ⟨side, a, x, u⟩ p) ↔ HandedDown r.made p := by
  obtain ⟨g, gs, hg⟩ := List.exists_cons_of_ne_nil hp
  have habove : (Place.below ⟨side, a, x, u⟩ p).above = g :: (gs ++ [⟨side, a, x, u⟩]) := by
    rw [Place.above_below, hg, List.cons_append]
  rw [HandedDown, HandedDown, habove, hg]
  constructor
  · rintro ⟨c, hc, hcode, f, hf⟩
    have htail : c.1.above = gs ++ [⟨side, a, x, u⟩] := (List.cons.inj hf).2.symm
    rcases List.mem_append.mp hc with hmem | hmem
    · rw [← hpre] at hmem
      rcases above_of_earlier (mem_of_made hmem) with hnil | ⟨fs, hfs⟩
      · rw [hnil] at htail
        exact absurd htail.symm (List.append_ne_nil_of_right_ne_nil _ (List.cons_ne_nil _ _))
      · rw [hfs] at htail
        have hlast := (List.append_inj' htail rfl).2
        exact absurd (Frame.mk.inj (List.cons.inj hlast).1).1 (Side.other_ne side)
    · obtain ⟨c', hc', rfl⟩ := List.mem_map.mp hmem
      exact ⟨c', hc', hcode, g, congrArg (g :: ·) (List.append_inj_left' htail rfl).symm⟩
  · rintro ⟨c, hc, hcode, f, hf⟩
    have htail : gs = c.1.above := (List.cons.inj hf).2
    refine ⟨Prod.map (Place.below ⟨side, a, x, u⟩) id c,
      List.mem_append_right _ (List.mem_map_of_mem hc), hcode, g, ?_⟩
    rw [htail]
    rfl

theorem stopFrames_root (hp : p.above = []) (he : StopFrames made p e) : e = [] := by
  rcases he with ⟨-, rfl⟩ | ⟨hdown, -⟩
  · exact hp
  · exact absurd hdown (not_handedDown_of_root hp)

theorem above_ne_nil_of_stopFrames (he : StopFrames made p e) (hne : e ≠ []) : p.above ≠ [] :=
  fun hp => hne (stopFrames_root hp he)

/-- The frames above a subtree, and the frame that it is a child of. -/
theorem stopFrames_inside (hpre : answers cb sorted user (earlier sorted side t u a x) = pre)
    (he' : StopFrames r.made p e')
    (he : StopFrames (pre.made ++ (r.rename (Place.below ⟨side, a, x, u⟩)).made)
      (Place.below ⟨side, a, x, u⟩ p) e) :
    (RootRemoved pre.made → p.above = [] → e = []) ∧
      (¬ RootRemoved pre.made → e = e' ++ [⟨side, a, x, u⟩]) := by
  by_cases hp : p.above = []
  · have hchild : HandedDown (pre.made ++ (r.rename (Place.below ⟨side, a, x, u⟩)).made)
        (Place.below ⟨side, a, x, u⟩ p) ↔ RootRemoved pre.made :=
      handedDown_child hp ⟨side, a, x, u⟩
    have habove : (Place.below ⟨side, a, x, u⟩ p).above = [⟨side, a, x, u⟩] := by
      rw [Place.above_below, hp, List.nil_append]
    rw [StopFrames, hchild, habove] at he
    have hnil := stopFrames_root hp he'
    constructor
    · rintro hroot -
      rcases he with ⟨hnot, -⟩ | ⟨-, f, hf⟩
      · exact absurd hroot hnot
      · exact (List.cons.inj hf).2.symm
    · intro hroot
      rcases he with ⟨-, rfl⟩ | ⟨hroot', -⟩
      · rw [hnil]
        rfl
      · exact absurd hroot' hroot
  · have hinside := handedDown_inside (r := r) hpre hp
    rw [StopFrames, hinside] at he
    refine ⟨fun _ hnil => absurd hnil hp, fun _ => ?_⟩
    rcases he with ⟨hnot, rfl⟩ | ⟨hdown, f, hf⟩
    · rcases he' with ⟨-, rfl⟩ | ⟨hdown, -⟩
      · rfl
      · exact absurd hdown hnot
    · rcases he' with ⟨hnot, -⟩ | ⟨-, g, hg⟩
      · exact absurd hdown hnot
      · rw [Place.above_below, hg, List.cons_append] at hf
        exact (List.cons.inj hf).2.symm

end StopFrames

/-! ## What a stopped walk does -/

/-- The calls before the one at `p`, in the walk that returns the zero. -/
def leftCalls (sorted : Bool) (p : Place (RbtData V)) : ℕ := if sorted then p.left.size else 0

/-- What the walk of a subtree does if it is stopped at `p`, for the frames that the stop has
to go through.  The walk returns zero, or it returns a count and does nothing more, or it goes
on in spite of the stop. -/
inductive Outcome (sorted : Bool) (run : Option (Walk V σ × ℤ)) (s : Walk V σ)
    (r : Asked (Place (RbtData V)) ℤ σ) (p : Place (RbtData V)) (fs : List (Frame (RbtData V))) :
    List (Frame (RbtData V)) → Prop where
  | zero {S : Walk V σ} (k : ℕ) (hk : k ≤ skipped r.made)
      (hk' : k + 1 ≤ leftCalls sorted p ∨ k = 0)
      (hcount : skipped r.made + leftCalls sorted p + 1 = r.made.length + k)
      (hrun : Leads run (some (S, 0)) r.made.length) (hcalls : S.calls = (s.fed r).calls)
      (habove : Above S.tree.nodes fs) : Outcome sorted run s r p fs []
  | counted {S : Walk V σ} (k n : ℕ) {f : Frame (RbtData V)} {gs : List (Frame (RbtData V))}
      (hright : ∀ g ∈ gs, g.side = .right) (hk : k ≤ skipped r.made)
      (hk' : k + 1 ≤ leftCalls sorted p ∨ k = 0) (hpos : 1 ≤ n)
      (hcount : n + skipped r.made + leftCalls sorted p + called sorted f.side =
        r.made.length + 1 + k)
      (hrun : Leads run (some (S, n)) (max n r.made.length)) (hcalls : S.calls = (s.fed r).calls)
      (habove : Above S.tree.nodes fs) : Outcome sorted run s r p fs (f :: gs)
  | beyond {f : Frame (RbtData V)} {gs : List (Frame (RbtData V))}
      (hleft : ¬ ∀ g ∈ gs, g.side = .right)
      (hmore : ∀ S n, run = some (S, n) → (s.fed r).calls <+: S.calls ∧
        (s.fed r).calls.length < S.calls.length) : Outcome sorted run s r p fs (f :: gs)

section Outcome

variable {cmp : List UInt8 → List UInt8 → ℤ} {mem : Bool}
  {cb : σ → List UInt8 × ℕ × Option V → σ × ℤ} {sorted : Bool} {s : Walk V σ} {fuel : ℕ}
  {walk : Walk V σ → Option Addr → Option (Walk V σ × ℤ)}
  {root : Option Addr} {fs e : List (Frame (RbtData V))} {l t u : PTree (RbtData V)} {a : Addr}
  {d : RbtData V} {pre r : Asked (Place (RbtData V)) ℤ σ} {p : Place (RbtData V)} {code rc : ℤ}

/-- The node can be removed at any time while the tree is as it was, and the nodes above it
stay. -/
def Removable (cmp : List UInt8 → List UInt8 → ℤ) (mem : Bool) (s : Walk V σ) (a : Addr)
    (fs : List (Frame (RbtData V))) : Prop :=
  ∀ s' : Walk V σ, s'.tree = s.tree → ∃ S, removeVisited cmp mem s' a = some S ∧
    S.calls = s'.calls ∧ Above S.tree.nodes fs

/-- A visit where the callback stops the walk. -/
theorem visit_stops (sorted : Bool) (walk : Walk V σ → Option Addr → Option (Walk V σ × ℤ))
    (rc : ℤ) (h : Placed s.tree.nodes root (.node l a d u) fs 0)
    (hcode : (cb s.user d.entry).2 = 0 ∨ (cb s.user d.entry).2 = -2)
    (hremove : Removable cmp mem s a fs) :
    ∃ S, visit cmp mem cb sorted walk a s rc = some (S, 0) ∧
      S.calls = s.calls ++ [(d.entry, (cb s.user d.entry).2)] ∧ Above S.tree.nodes fs := by
  have hcb := callback_eq cb h
  obtain ⟨s₁, hs₁⟩ : ∃ s₁ : Walk V σ, s₁ = { s with
      user := (cb s.user d.entry).1
      calls := s.calls ++ [(d.entry, (cb s.user d.entry).2)] } := ⟨_, rfl⟩
  have htree : s₁.tree = s.tree := by rw [hs₁]
  have hcalls : s₁.calls = s.calls ++ [(d.entry, (cb s.user d.entry).2)] := by rw [hs₁]
  rw [← hs₁] at hcb
  rw [← hcalls]
  rcases hcode with hzero | htwo
  · refine ⟨s₁, ?_, rfl, htree ▸ above_of_placed h⟩
    rw [visit, hcb, hzero]
    rfl
  · obtain ⟨S, hrun, hS, habove⟩ := hremove s₁ htree
    refine ⟨S, ?_, hS, habove⟩
    rw [visit, hcb, htwo]
    simp only [Option.bind_eq_bind, Option.bind_some, if_true, hrun]

/-- The node where the asking ends. -/
theorem outcome_here (h : Placed s.tree.nodes root (.node l a d u) fs 0)
    (hfuel : (PTree.node l a d u).height ≤ fuel + 1)
    (hpre : answers cb sorted s.user
      (if sorted then (places true l).map (Place.below ⟨.left, a, d, u⟩) else []) = pre)
    (hpass : pre.refused = none)
    (hcode : (cb pre.user d.entry).2 = 0 ∨ (cb pre.user d.entry).2 = -2)
    (hremove : Removable cmp mem s a fs) :
    Outcome sorted (rbtWalkInternal cmp mem cb sorted (fuel + 1) s (some a)) s
      (pre.andThen fun user => answers cb sorted user [⟨l, a, d, u, []⟩])
      ⟨l, a, d, u, []⟩ fs [] := by
  rw [PTree.height] at hfuel
  have hsib : (answers cb sorted s.user (places sorted l)).refused = none →
      ∃ n, Passes (rbtWalkInternal cmp mem cb sorted fuel) s l
        (answers cb sorted s.user (places sorted l)) n :=
    walk_passes l fuel s (⟨.left, a, d, u⟩ :: fs) (by omega) (placed_cons.mpr h)
  obtain ⟨rc, hpos, hcount, hlength, hfew, hrun⟩ := walk_to_visit cmp mem h hsib hpre hpass
  obtain ⟨S, hvisit, hcalls, habove⟩ := visit_stops sorted
    (rbtWalkInternal cmp mem cb sorted fuel) rc (s := s.fed pre) h hcode hremove
  have hrefused : ¬ GoesOn sorted ⟨l, a, d, u, []⟩ (cb pre.user d.entry).2 := by
    rintro ⟨hzero, htwo, -⟩
    exact hcode.elim hzero htwo
  have hmade : (pre.andThen fun user => answers cb sorted user [⟨l, a, d, u, []⟩]).made =
      pre.made ++ [(⟨l, a, d, u, []⟩, (cb pre.user d.entry).2)] := by
    rw [Asked.andThen_of_none hpass, answers_single_of_refused hrefused]
  have hnot : (cb pre.user d.entry).2 ≠ -1 := by
    rcases hcode with hzero | htwo
    · rw [hzero]
      decide
    · rw [htwo]
      decide
  have hlength' : (pre.andThen fun user => answers cb sorted user
      [⟨l, a, d, u, []⟩]).made.length = pre.made.length + 1 := by
    rw [hmade, List.length_append, List.length_singleton]
  have hskipped : skipped (pre.andThen fun user => answers cb sorted user
      [⟨l, a, d, u, []⟩]).made = skipped pre.made := by
    rw [hmade, skipped_append, skipped_single fun hc => absurd hc hnot, add_zero]
  have hleft : leftCalls sorted ⟨l, a, d, u, []⟩ = pre.made.length := hlength.symm
  rw [hvisit] at hrun
  refine .zero (skipped pre.made) (le_of_eq hskipped.symm) ?_ ?_ ?_ ?_ habove
  · rw [hleft]
    exact hfew
  · rw [hskipped, hleft, hlength']
    omega
  · rw [hlength']
    exact hrun
  · rw [hcalls, fed_andThen hpass, answers_single_of_refused hrefused]
    rfl

theorem goOn_grows (side : Side) {S S' : Walk V σ} {n : ℤ}
    (hrun : goOn cmp mem cb sorted (rbtWalkInternal cmp mem cb sorted fuel) side a S rc =
      some (S', n)) : S.calls <+: S'.calls := by
  have hwalk : ∀ (s : Walk V σ) a s' rrc,
      rbtWalkInternal cmp mem cb sorted fuel s (some a) = some (s', rrc) →
        s.calls <+: s'.calls := fun s a s' rrc h => (walk_walked fuel s a s' rrc h).calls
  cases side with
  | left =>
      cases sorted with
      | true => exact (visit_grows hwalk hrun).1
      | false =>
          obtain ⟨m, -, hrest⟩ := Option.bind_eq_some_iff.mp hrun
          refine walkChild_grows hwalk (fun s₁ n₁ heq => ?_) hrest
          cases heq
          exact List.prefix_refl _
  | right =>
      cases sorted <;>
      · cases hrun
        exact List.prefix_refl _

/-- After the walk of a left child that was stopped further down there is another call, if
the node has another child or is itself called later. -/
theorem goOn_left_more {S S' : Walk V σ} {n : ℤ} {f : Frame (RbtData V)}
    (hside : f.side = .left) (hu : f.sibling ≠ .leaf) (habove : Above S.tree.nodes (f :: fs))
    (hrun : goOn cmp mem cb sorted (rbtWalkInternal cmp mem cb sorted fuel) .left f.addr S rc =
      some (S', n)) : S.calls.length < S'.calls.length := by
  have hwalk : ∀ (s : Walk V σ) a s' rrc,
      rbtWalkInternal cmp mem cb sorted fuel s (some a) = some (s', rrc) →
        s.calls <+: s'.calls := fun s a s' rrc h => (walk_walked fuel s a s' rrc h).calls
  cases sorted with
  | true => exact (visit_grows hwalk hrun).2
  | false =>
      obtain ⟨m, hm, hrest⟩ := Option.bind_eq_some_iff.mp hrun
      obtain ⟨c, q, hnode⟩ := habove f List.mem_cons_self
      rw [hside] at hnode
      obtain rfl := Option.some.inj (hm.symm.trans hnode)
      rcases walkChild_cases hrest with ⟨hnone, -⟩ | ⟨b, s', rrc, -, hchild, hend⟩
      · exact absurd (addr_eq_none hnone) hu
      · have hmore := (walk_walked fuel S b s' rrc hchild).more
        rcases hend with ⟨-, -, rfl⟩ | ⟨-, n', -, heq⟩
        · exact hmore
        · cases heq
          exact hmore

/-- From the walk of a child to that of its parent. -/
theorem outcome_inside {side : Side} {e' : List (Frame (RbtData V))}
    (h : Placed s.tree.nodes root (join side t u a d) fs 0)
    (hfuel : (join side t u a d).height ≤ fuel + 1)
    (hcol : ∃ n, Coloured RbtData.color n (join side t u a d))
    (hpre : answers cb sorted s.user (earlier sorted side t u a d) = pre)
    (hpass : pre.refused = none) (ht : t ≠ .leaf) (hdeep : p.above ≠ [] → 1 < t.height)
    (he' : StopFrames r.made p e')
    (he : StopFrames (pre.made ++ (r.rename (Place.below ⟨side, a, d, u⟩)).made)
      (Place.below ⟨side, a, d, u⟩ p) e)
    (ih : Outcome sorted (rbtWalkInternal cmp mem cb sorted fuel (s.fed pre) t.addr) (s.fed pre)
      r p (⟨side, a, d, u⟩ :: fs) e') :
    Outcome sorted (rbtWalkInternal cmp mem cb sorted (fuel + 1) s (some a)) s
      (pre.andThen fun _ => r.rename (Place.below ⟨side, a, d, u⟩))
      (Place.below ⟨side, a, d, u⟩ p) fs e := by
  obtain ⟨R, hR⟩ : ∃ R, (pre.andThen fun _ => r.rename (Place.below ⟨side, a, d, u⟩)) = R :=
    ⟨_, rfl⟩
  have hshallow : u = .leaf → p.above = [] := by
    intro hu
    by_contra hp
    obtain ⟨n, hcol⟩ := hcol
    rw [hu] at hcol
    have hone := height_le_one hcol
    have hlt := hdeep hp
    omega
  have hlength : R.made.length = pre.made.length + r.made.length := by
    rw [← hR, Asked.andThen_of_none hpass, List.length_append, Asked.rename, List.length_map]
  have hskipped : skipped R.made = skipped pre.made + skipped r.made := by
    rw [← hR, Asked.andThen_of_none hpass, skipped_append, skipped_rename]
  have hcalls : (s.fed R).calls = ((s.fed pre).fed r).calls := by
    rw [← hR, fed_andThen hpass, fed_rename]
  have hleft : leftCalls sorted (Place.below ⟨side, a, d, u⟩ p) = leftCalls sorted p := rfl
  have hup : ∀ {nodes : Heap (RbtNode V)}, Above nodes (⟨side, a, d, u⟩ :: fs) → Above nodes fs :=
    fun habove f hf => habove f (List.mem_cons_of_mem _ hf)
  obtain ⟨hroot, hinside⟩ := stopFrames_inside hpre he' he
  have hsib := sibling_passes cmp mem cb sorted h hfuel
  rw [hR]
  cases walk_into cmp mem side h hsib hpre hpass fun _ => ht with
  | left hne hu hremoved hone hlen hrun =>
      obtain rfl := hroot hremoved (hshallow hu)
      obtain rfl := stopFrames_root (hshallow hu) he'
      cases ih with
      | zero k hk hk' hcount hchild hcalls' habove =>
          refine .zero k (by omega) hk' (by omega) ?_ (hcalls'.trans hcalls.symm) (hup habove)
          exact (hrun.mono (by omega)).trans (hchild.mono (by omega))
  | counted rc hnot hpos hcount hrun =>
      obtain rfl := hinside (hnot ht)
      cases ih with
      | zero k hk hk' hcount' hchild hcalls' habove =>
          refine .counted k (rc + 1) (fun _ hg => absurd hg List.not_mem_nil) (by omega) hk' (by omega) ?_ ?_
            (hcalls'.trans hcalls.symm) (hup habove)
          · change rc + 1 + skipped R.made + leftCalls sorted p + called sorted side = _
            omega
          · exact (hrun.mono (by omega)).trans ((walkChild_zero rfl ht hchild).mono (by omega))
      | @counted S k n f gs hright hk hk' hpos' hcount' hchild hcalls' habove =>
          have hp := above_ne_nil_of_stopFrames he' (List.cons_ne_nil f gs)
          have hgo : Leads (rbtWalkInternal cmp mem cb sorted (fuel + 1) s (some a))
              (goOn cmp mem cb sorted (rbtWalkInternal cmp mem cb sorted fuel) side a S
                (rc + n : ℕ)) (max (rc + n) R.made.length) :=
            (hrun.mono (by omega)).trans
              ((walkChild_counted rc ht hpos' hchild).mono (by omega))
          cases side with
          | left =>
              refine .beyond (fun hall => ?_) fun S' m hrun' => ?_
              · cases hall _ (List.mem_append_right gs (List.mem_singleton_self _))
              · rcases hgo with hgo | ⟨hnone, -⟩
                · rw [hrun'] at hgo
                  have hsibling : u ≠ .leaf := fun hu => hp (hshallow hu)
                  rw [← hcalls'.trans hcalls.symm]
                  exact ⟨goOn_grows .left hgo.symm,
                    goOn_left_more (f := ⟨.left, a, d, u⟩) rfl hsibling habove hgo.symm⟩
                · rw [hrun'] at hnone
                  cases hnone
          | right =>
              have hone : called sorted .right = 1 := by
                cases sorted <;> rfl
              have hlast : goOn cmp mem cb sorted (rbtWalkInternal cmp mem cb sorted fuel) .right a
                  S (rc + n : ℕ) = some (S, ((rc + n : ℕ) : ℤ)) := by
                cases sorted <;> rfl
              rw [hlast] at hgo
              refine .counted k (rc + n) (fun g hg => ?_) (by omega) hk' (by omega) ?_ hgo
                (hcalls'.trans hcalls.symm) (hup habove)
              · rcases List.mem_append.mp hg with hmem | hmem
                · exact hright g hmem
                · rw [List.mem_singleton.mp hmem]
              · rw [hleft]
                omega
      | @beyond f gs hnotright hmore =>
          refine .beyond (fun hall => hnotright fun g hg => hall g (List.mem_append_left _ hg))
            fun S' m hrun' => ?_
          rcases hrun with hrun | ⟨hnone, -⟩
          · rw [hrun'] at hrun
            rw [hcalls]
            rcases walkChild_cases hrun.symm with ⟨hnone, -⟩ | ⟨b, s', rrc, hb, hchild, hend⟩
            · exact absurd (addr_eq_none hnone) ht
            · obtain ⟨hgrows, hlt⟩ := hmore s' rrc (hb ▸ hchild)
              rcases hend with ⟨-, -, rfl⟩ | ⟨-, n, -, hrest⟩
              · exact ⟨hgrows, hlt⟩
              · have hgo := goOn_grows side hrest
                exact ⟨hgrows.trans hgo, hlt.trans_le hgo.length_le⟩
          · rw [hrun'] at hnone
            cases hnone

/-- The outcome of a walk that is stopped, wherever this is. -/
theorem reached_outcome {user : σ} (hreached : Reached (fun user d => cb user d.entry)
      (fun p code => decide (GoesOn sorted p code)) sorted user t r) :
    ∀ {fuel : ℕ} {s : Walk V σ} {fs e : List (Frame (RbtData V))} {p : Place (RbtData V)}
      {code : ℤ}, s.user = user → t.height ≤ fuel → Placed s.tree.nodes root t fs 0 →
      (∃ n, Coloured RbtData.color n t) → r.refused = some (p, code) → code = 0 ∨ code = -2 →
      Removable cmp mem s p.addr (p.above ++ fs) → StopFrames r.made p e →
      Outcome sorted (rbtWalkInternal cmp mem cb sorted fuel s t.addr) s r p fs e := by
  induction hreached with
  | here l a d u hpre hpass hrefused =>
      intro fuel s fs e p code huser hfuel h hcol hr hcode hremove he
      subst huser
      obtain ⟨fuel, rfl⟩ := Nat.exists_eq_succ_of_ne_zero
        (Nat.ne_of_gt ((Nat.succ_pos _).trans_le hfuel))
      rw [Asked.andThen_of_none hpass, askPlaces_single_of_refused hrefused] at hr
      cases hr
      obtain rfl := stopFrames_root rfl he
      exact outcome_here h hfuel hpre hpass hcode hremove
  | @inside _ side t u a d pre r hpre hpass hbelow ih =>
      intro fuel s fs e p code huser hfuel h hcol hr hcode hremove he
      subst huser
      obtain ⟨q, hq, rfl⟩ := refused_of_inside hpass hr
      obtain ⟨fuel, rfl⟩ := Nat.exists_eq_succ_of_ne_zero
        (Nat.ne_of_gt ((height_pos (join_ne_leaf side t u a d)).trans_le hfuel))
      have hheight := hfuel
      rw [height_join] at hheight
      obtain ⟨n, hn⟩ := hcol
      obtain ⟨m, -, hm, -, -⟩ := coloured_join.mp hn
      obtain ⟨e', he'⟩ := exists_stopFrames _ q
      rw [Asked.andThen_of_none hpass] at he
      have hremove' := hremove
      rw [Place.above_below, List.append_assoc, List.singleton_append] at hremove'
      have hchild := ih (s := s.fed pre) rfl (Nat.le_of_succ_le_succ ((Nat.succ_le_succ (le_max_left _ _)).trans
        hheight)) ((placed_cons (f := ⟨side, a, d, u⟩)).mpr h) ⟨m, hm⟩ hq hcode hremove' he'
      rw [addr_join]
      have hdeep : q.above ≠ [] → 1 < t.height := fun hne =>
        (Nat.succ_le_of_lt (List.length_pos_of_ne_nil hne)).trans_lt (hbelow.depth_lt hq)
      exact outcome_inside h hfuel ⟨n, hn⟩ hpre hpass hbelow.ne_leaf hdeep he' he hchild

end Outcome

/-! ## A node that is walked again -/

section Again

variable {cmp : List UInt8 → List UInt8 → ℤ} {mem : Bool}
  {cb : σ → List UInt8 × ℕ × Option V → σ × ℤ} {sorted : Bool} {s : Walk V σ} {fuel : ℕ}
  {root : Option Addr} {fs : List (Frame (RbtData V))} {l t u : PTree (RbtData V)} {a : Addr}
  {d : RbtData V} {pre r : Asked (Place (RbtData V)) ℤ σ} {S S' : Walk V σ} {n rc : ℤ}

/-- The calls that are lost when a node with children is to be removed: its own, and in order
that of a child. -/
def againCalls (sorted : Bool) : ℕ := if sorted then 2 else 1

theorem calls_fed_grow (s : Walk V σ) (r : Asked (Place (RbtData V)) ℤ σ) :
    s.calls <+: (s.fed r).calls := List.prefix_append _ _

theorem length_fed (s : Walk V σ) (r : Asked (Place (RbtData V)) ℤ σ) :
    (s.fed r).calls.length = s.calls.length + r.made.length := by
  rw [Walk.fed, List.length_append, List.length_map]

/-- The walk of a node that is to be removed and has children. -/
theorem again_here (h : Placed s.tree.nodes root (.node l a d u) fs 0)
    (hfuel : (PTree.node l a d u).height ≤ fuel + 1)
    (hpre : answers cb sorted s.user
      (if sorted then (places true l).map (Place.below ⟨.left, a, d, u⟩) else []) = pre)
    (hpass : pre.refused = none) (hcode : (cb pre.user d.entry).2 = -1)
    (hrefused : ¬ GoesOn sorted ⟨l, a, d, u, []⟩ (cb pre.user d.entry).2)
    (hrun : rbtWalkInternal cmp mem cb sorted (fuel + 1) s (some a) = some (S, n)) :
    Walked sorted (againCalls sorted) s S n := by
  rw [PTree.height] at hfuel
  have hsib : (answers cb sorted s.user (places sorted l)).refused = none →
      ∃ n, Passes (rbtWalkInternal cmp mem cb sorted fuel) s l
        (answers cb sorted s.user (places sorted l)) n :=
    walk_passes l fuel s (⟨.left, a, d, u⟩ :: fs) (by omega) (placed_cons.mpr h)
  obtain ⟨rc, -, -, hlength, -, hleads⟩ :=
    walk_to_visit cmp mem h hsib hpre hpass
  have hvisit : visit cmp mem cb sorted (rbtWalkInternal cmp mem cb sorted fuel) a (s.fed pre) rc =
      some (S, n) := by
    rcases hleads with hleads | ⟨hnone, -⟩
    · rw [← hleads, hrun]
    · rw [hrun] at hnone
      cases hnone
  obtain ⟨s₁, code, hcb, hcases⟩ := visit_cases hvisit
  have hcb' := callback_eq cb (s := s.fed pre) h
  rw [hcb] at hcb'
  obtain ⟨hs₁, hsame⟩ := Prod.mk.inj (Option.some.inj hcb')
  have hcode' : code = -1 := hsame.trans hcode
  have htree : s₁.tree = s.tree := by
    rw [hs₁]
    rfl
  have hlast : s₁.calls = (s.fed pre).calls ++ [(d.entry, (cb (s.fed pre).user d.entry).2)] := by
    rw [hs₁]
  have hcalls : s.calls <+: s₁.calls :=
    hlast ▸ (calls_fed_grow s pre).trans (List.prefix_append _ _)
  have hlen : s₁.calls.length = s.calls.length + pre.made.length + 1 := by
    rw [hlast, List.length_append, length_fed, List.length_singleton]
  rw [hcode] at hrefused
  subst hcode'
  rcases hcases with ⟨hcode, -⟩ | ⟨-, s₂, b, h₂, hagain⟩ | ⟨-, ⟨m, hm, hleaf⟩, -⟩ | ⟨hcode, -⟩ |
    ⟨-, hcode, -⟩
  · exact absurd hcode (by decide)
  · have hw := walk_walked fuel s₂ b S n hagain
    refine hw.weaken (h₂ ▸ hcalls) ?_
    rw [h₂, hlen, hlength, againCalls]
    cases sorted with
    | false => exact le_refl _
    | true =>
        have hl : l ≠ .leaf := by
          rintro rfl
          exact hrefused ⟨by decide, by decide, fun _ => ⟨rfl, fun hs => absurd hs (by decide)⟩⟩
        have hpos := (height_pos hl).trans_le (height_le_size l)
        rw [if_pos rfl, if_pos rfl]
        omega
  · rw [htree, h.node_eq (s := .left)] at hm
    cases hm
    obtain ⟨hl, hu⟩ := not_or.mp hleaf
    refine absurd ⟨by decide, by decide, fun _ => ⟨?_, fun _ => ?_⟩⟩ hrefused
    · exact Option.not_isSome_iff_eq_none.mp hl
    · exact Option.not_isSome_iff_eq_none.mp hu
  · exact absurd hcode (by decide)
  · exact absurd rfl hcode

/-- What comes after the walk of a child keeps the calls ahead of the count. -/
theorem goOn_walked {k : ℕ} {side : Side} {s₀ : Walk V σ} (h : Walked sorted k s₀ S rc)
    (hside : called sorted side = 1)
    (hrun : goOn cmp mem cb sorted (rbtWalkInternal cmp mem cb sorted fuel) side a S rc =
      some (S', n)) : Walked sorted k s₀ S' n := by
  cases side with
  | left =>
      cases sorted with
      | true => cases hside
      | false =>
          obtain ⟨m, -, hrest⟩ := Option.bind_eq_some_iff.mp hrun
          refine walkChild_walked h (walk_walked fuel S) (fun s₁ n₁ h₁ heq => ?_) hrest
          cases heq
          exact h₁
  | right =>
      cases sorted <;>
      · cases hrun
        exact h

theorem fed_walked {rc : ℕ} (hpos : 1 ≤ rc) (hsmall : (rc : ℤ) < 2 ^ 31)
    (hcount : rc + skipped pre.made = pre.made.length) : Walked sorted 0 s (s.fed pre) rc := by
  have hlen := length_fed s pre
  have hspare := spare_nonneg sorted
  refine ⟨calls_fed_grow s pre, by omega, by omega, hsmall, fun _ => ?_, fun _ => ⟨?_, ?_⟩⟩
  · omega
  · omega
  · omega

theorem again_inside {side : Side}
    (hpre : answers cb sorted s.user (earlier sorted side t u a d) = pre) (ht : t ≠ .leaf)
    (hinto : Into cmp mem cb sorted (rbtWalkInternal cmp mem cb sorted fuel) side a t u s pre
      (rbtWalkInternal cmp mem cb sorted (fuel + 1) s (some a)))
    (ih : ∀ S n, rbtWalkInternal cmp mem cb sorted fuel (s.fed pre) t.addr = some (S, n) →
      Walked sorted (againCalls sorted) (s.fed pre) S n)
    (hrun : rbtWalkInternal cmp mem cb sorted (fuel + 1) s (some a) = some (S, n)) :
    Walked sorted (againCalls sorted) s S n := by
  cases hinto with
  | left hne hu hremoved hone hlen hleads =>
      rcases hleads with hleads | ⟨hnone, -⟩
      · refine (ih S n (hleads ▸ hrun)).weaken (calls_fed_grow s pre) ?_
        rw [length_fed]
        omega
      · rw [hrun] at hnone
        cases hnone
  | counted rc hnot hpos hcount hleads =>
      rcases hleads with hleads | ⟨hnone, -⟩
      · rw [hrun] at hleads
        by_cases hside : called sorted side = 1
        · rcases walkChild_cases hleads.symm with ⟨hnone, -⟩ | ⟨b, s', rrc, hb, hchild, hend⟩
          · exact absurd (addr_eq_none hnone) ht
          · have hw := ih s' rrc (hb ▸ hchild)
            have hnonneg := hw.nonneg
            have hbegun : (rc : ℤ) < 2 ^ 31 → Walked sorted 0 s (s.fed pre) rc :=
              fun hsmall => fed_walked hpos hsmall (by omega)
            rw [← zero_add (againCalls sorted)]
            rcases hend with ⟨hzero, hadd, rfl⟩ | ⟨hne, m, hadd, hrest⟩
            · obtain ⟨rfl, hsmall⟩ := addCount_eq_some hadd
              exact (hbegun (by omega)).add hw (Or.inl ⟨hzero, rfl⟩) hsmall
            · obtain ⟨rfl, hsmall⟩ := addCount_eq_some hadd
              exact goOn_walked ((hbegun (by omega)).add hw (Or.inr ⟨hne, rfl⟩) hsmall) hside hrest
        · cases side with
          | right => exact absurd (by cases sorted <;> rfl) hside
          | left =>
              cases sorted with
              | false => exact absurd rfl hside
              | true =>
                  subst hpre
                  obtain rfl : rc = 1 := hcount
                  obtain ⟨b, hb⟩ := Option.ne_none_iff_exists'.mp fun hnone => ht (addr_eq_none hnone)
                  rw [hb] at hleads ih
                  obtain ⟨⟨s', rrc⟩, hchild, hend⟩ := Option.bind_eq_some_iff.mp hleads.symm
                  have hfed : s.fed (answers cb true s.user (earlier true .left t u a d)) = s :=
                    fed_nil
                  rw [hfed] at hchild ih
                  exact visit_after_walked (ih s' rrc hchild) (walk_walked fuel) hend
      · rw [hrun] at hnone
        cases hnone

/-- A walk that comes to a node with children that is to be removed counts too few calls, if
it is stopped at all. -/
theorem reached_again {user : σ} (hreached : Reached (fun user d => cb user d.entry)
      (fun p code => decide (GoesOn sorted p code)) sorted user t r) :
    ∀ {fuel : ℕ} {s : Walk V σ} {fs : List (Frame (RbtData V))} {p : Place (RbtData V)}
      {S : Walk V σ} {n : ℤ}, s.user = user → t.height ≤ fuel →
      Placed s.tree.nodes root t fs 0 → r.refused = some (p, -1) →
      rbtWalkInternal cmp mem cb sorted fuel s t.addr = some (S, n) →
      Walked sorted (againCalls sorted) s S n := by
  induction hreached with
  | here l a d u hpre hpass hrefused =>
      intro fuel s fs p S n huser hfuel h hr hrun
      subst huser
      obtain ⟨fuel, rfl⟩ := Nat.exists_eq_succ_of_ne_zero
        (Nat.ne_of_gt ((Nat.succ_pos _).trans_le hfuel))
      rw [Asked.andThen_of_none hpass, askPlaces_single_of_refused hrefused] at hr
      have hcode := congrArg Prod.snd (Option.some.inj hr)
      exact again_here h hfuel hpre hpass hcode (fun hgo => hrefused (decide_eq_true hgo)) hrun
  | @inside _ side t u a d pre r hpre hpass hbelow ih =>
      intro fuel s fs p S n huser hfuel h hr hrun
      subst huser
      obtain ⟨q, hq, rfl⟩ := refused_of_inside hpass hr
      obtain ⟨fuel, rfl⟩ := Nat.exists_eq_succ_of_ne_zero
        (Nat.ne_of_gt ((height_pos (join_ne_leaf side t u a d)).trans_le hfuel))
      have hsib := sibling_passes cmp mem cb sorted h hfuel
      rw [height_join] at hfuel
      have hinto := walk_into cmp mem side h hsib hpre hpass fun _ => hbelow.ne_leaf
      rw [addr_join] at hrun
      refine again_inside hpre hbelow.ne_leaf hinto (fun S n hchild => ?_) hrun
      exact ih (s := s.fed pre) rfl (by omega) ((placed_cons (f := ⟨side, a, d, u⟩)).mpr h) hq hchild

end Again

end RbTree
end LibHL
