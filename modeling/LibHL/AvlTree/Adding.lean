import LibHL.AvlTree.Balance

/-!
# Adding a key

Where `avlt_add` puts a new node is a matter of the addressed tree alone: it goes down to
a node without a child on the side of the key, or to a gap between a node and its child.
The code does to the cells what this does to the tree.
-/

namespace LibHL
namespace AvlTree

open LinkedNode PTree AvltData

variable {K V : Type} (cmp : K → K → ℤ)

/-! ## On addressed trees -/

/-- How the key at the root compares with `key`. -/
def compareRoot (key : K) : PTree (AvltData K V) → Option ℤ
  | .leaf => none
  | .node _ _ d _ => some (cmp d.key key)

/-- What happens at a node whose subtree on side `s` is `near`. -/
inductive Spot where
  | descend
  | attach
  | splice (moved : Bool)
  | present
  deriving DecidableEq

/-- The decision at a node: it depends on the root of the near subtree and on the root of
the inner subtree of that. -/
def spot (s : Side) (key : K) (near : PTree (AvltData K V)) : Spot :=
  match compareRoot cmp key near with
  | none => .attach
  | some c =>
      let inner := compareRoot cmp key (near.sub s.other)
      if Toward s.other c then .descend
      else if Toward s c ∧ inner ≠ some 0 then
        .splice (inner.any fun c => Toward s.other c)
      else .present

/-- A tree with a new root above it on side `s`.  If `moved` is set, then the new root
gets the inner subtree. -/
def spliced (s : Side) (key : K) (value : Option V) (new : Addr) (moved : Bool) :
    PTree (AvltData K V) → PTree (AvltData K V) × Frame (AvltData K V)
  | .leaf => (.leaf, ⟨s, new, ⟨key, value, 0, 0⟩, .leaf⟩)
  | .node l a d r =>
      let near : PTree (AvltData K V) := .node l a d r
      let inner := near.sub s.other
      let data := (⟨key, value, 0, 0⟩ : AvltData K V).setH s d.height
      if moved then
        (join s (near.sub s) .leaf a (d.setH s.other 0),
          ⟨s, new, data.setH s.other (stored inner), inner⟩)
      else (near, ⟨s, new, data, .leaf⟩)

/-- The position at which balancing starts after a key was added at address `new` to the
subtree at a position; nothing if the key is taken to be present. -/
def insertAt (key : K) (value : Option V) (new : Addr) :
    PTree (AvltData K V) → List (Frame (AvltData K V)) →
      Option (PTree (AvltData K V) × List (Frame (AvltData K V)))
  | .leaf, _ => none
  | .node l x d r, fs =>
      let c := cmp key d.key
      if c = 0 then none
      else if c < 0 then
        match spot cmp .left key l with
        | .descend => insertAt key value new l (⟨.left, x, d, r⟩ :: fs)
        | .attach => some (.node (.node .leaf new ⟨key, value, 0, 0⟩ .leaf) x
            { d with hl := d.hl + 1 } r, fs)
        | .splice moved =>
            let p := spliced .left key value new moved l
            some (p.1, p.2 :: ⟨.left, x, d, r⟩ :: fs)
        | .present => none
      else
        match spot cmp .right key r with
        | .descend => insertAt key value new r (⟨.right, x, d, l⟩ :: fs)
        | .attach => some (.node l x { d with hr := d.hr + 1 }
            (.node .leaf new ⟨key, value, 0, 0⟩ .leaf), fs)
        | .splice moved =>
            let p := spliced .right key value new moved r
            some (p.1, p.2 :: ⟨.right, x, d, l⟩ :: fs)
        | .present => none

variable {cmp} {s : Side} {key : K} {value : Option V} {new : Addr}
  {t u : PTree (AvltData K V)} {x : Addr} {d : AvltData K V}
  {fs : List (Frame (AvltData K V))}

/-- The side of a node that a key which compares as `c` with it lies on. -/
def sideFor (c : ℤ) : Side := if c < 0 then .left else .right

/-- One step of the way down, on the side of the key. -/
theorem insertAt_join (hc : cmp key d.key ≠ 0) (hs : sideFor (cmp key d.key) = s) :
    insertAt cmp key value new (join s t u x d) fs =
      match spot cmp s key t with
      | .descend => insertAt cmp key value new t (⟨s, x, d, u⟩ :: fs)
      | .attach => some (join s (.node .leaf new ⟨key, value, 0, 0⟩ .leaf) u x
          (d.setH s (d.h s + 1)), fs)
      | .splice moved =>
          some ((spliced s key value new moved t).1,
            (spliced s key value new moved t).2 :: ⟨s, x, d, u⟩ :: fs)
      | .present => none := by
  rw [sideFor] at hs
  by_cases hneg : cmp key d.key < 0
  · rw [if_pos hneg] at hs
    subst hs
    rw [join, insertAt]
    simp only [if_neg hc, if_pos hneg]
    rfl
  · rw [if_neg hneg] at hs
    subst hs
    rw [join, insertAt]
    simp only [if_neg hc, if_neg hneg]
    rfl

theorem insertAt_of_eq_zero (hc : cmp key d.key = 0) :
    insertAt cmp key value new (join s t u x d) fs = none := by
  cases s <;> (rw [join, insertAt]; exact if_pos hc)

theorem spliced_join (moved : Bool) (inner out : PTree (AvltData K V)) (a : Addr)
    (e : AvltData K V) : spliced s key value new moved (join s.other inner out a e) =
      if moved then (join s.other .leaf out a (e.setH s.other 0),
        ⟨s, new, ((⟨key, value, 0, 0⟩ : AvltData K V).setH s e.height).setH s.other
          (stored inner), inner⟩)
      else (join s.other inner out a e,
        ⟨s, new, (⟨key, value, 0, 0⟩ : AvltData K V).setH s e.height, .leaf⟩) := by
  cases s <;> rfl

theorem spot_join (inner out : PTree (AvltData K V)) (a : Addr) (e : AvltData K V) :
    spot cmp s key (join s.other inner out a e) =
      if Toward s.other (cmp e.key key) then .descend
      else if Toward s (cmp e.key key) ∧ compareRoot cmp key inner ≠ some 0 then
        .splice ((compareRoot cmp key inner).any fun c => Toward s.other c)
      else .present := by
  cases s <;> rfl

theorem spot_join_ne_attach (inner out : PTree (AvltData K V)) (a : Addr)
    (e : AvltData K V) : spot cmp s key (join s.other inner out a e) ≠ .attach := by
  rw [spot_join]
  by_cases h₁ : Toward s.other (cmp e.key key)
  · rw [if_pos h₁]
    exact nofun
  · rw [if_neg h₁]
    by_cases h₂ : Toward s (cmp e.key key) ∧ compareRoot cmp key inner ≠ some 0
    · rw [if_pos h₂]
      exact nofun
    · rw [if_neg h₂]
      exact nofun

/-- What is known where a node is put between a node and its child. -/
theorem spot_join_eq_splice {inner out : PTree (AvltData K V)} {a : Addr}
    {e : AvltData K V} {moved : Bool}
    (h : spot cmp s key (join s.other inner out a e) = .splice moved) :
    Toward s (cmp e.key key) ∧ compareRoot cmp key inner ≠ some 0 ∧
      moved = (compareRoot cmp key inner).any fun c => Toward s.other c := by
  rw [spot_join] at h
  by_cases h₁ : Toward s.other (cmp e.key key)
  · rw [if_pos h₁] at h
    cases h
  · rw [if_neg h₁] at h
    by_cases h₂ : Toward s (cmp e.key key) ∧ compareRoot cmp key inner ≠ some 0
    · rw [if_pos h₂] at h
      cases h
      exact ⟨h₂.1, h₂.2, rfl⟩
    · rw [if_neg h₂] at h
      cases h

/-! ## On cells -/

section Cells

variable {nodes : Heap (AvltNode K V)} {q : Option Addr} {F : Multiset (Addr × AvltNode K V)}

theorem compareAt_of_cells (cmp : K → K → ℤ) (key : K) (hs : nodes.cells = t.cells q + F) :
    compareAt cmp nodes key t.addr = some (compareRoot cmp key t) := by
  cases t with
  | leaf => rfl
  | node l a d r =>
      rw [PTree.cells, add_assoc] at hs
      have ha := Heap.eq_some_of_cells hs
      simp [compareAt, PTree.addr, compareRoot, ha]

theorem place_of_leaf (hs : nodes.cells = (join s .leaf u x d).cells q + F) :
    place cmp s nodes x key = some .attach := by
  rw [cells_join, add_assoc] at hs
  simp [place, Heap.eq_some_of_cells hs]

theorem place_of_join {inner out : PTree (AvltData K V)} {a : Addr} {e : AvltData K V}
    (hs : nodes.cells = (join s (join s.other inner out a e) u x d).cells q + F) :
    place cmp s nodes x key =
      some (match spot cmp s key (join s.other inner out a e) with
        | .descend => .descend a
        | .attach => .attach
        | .splice moved => .splice a (if moved then inner.addr else none)
        | .present => .present) := by
  rw [cells_join, cells_join, addr_join] at hs
  have hx := Heap.eq_some_of_cells (hs.trans (add_assoc _ _ _))
  have hi : nodes.cells = inner.cells (some a) + ({(x, link s (some a) u.addr q d)} +
      ({(a, link s.other inner.addr out.addr (some x) e)} + out.cells (some a) +
        u.cells (some x)) + F) := by
    rw [hs]
    abel
  have ha : nodes a = some (link s.other inner.addr out.addr (some x) e) := by
    refine Heap.eq_some_of_cells (s := {(x, link s (some a) u.addr q d)} +
      (inner.cells (some a) + out.cells (some a) + u.cells (some x)) + F) (hs.trans ?_)
    abel
  have hcompare := compareAt_of_cells cmp key hi
  rw [spot_join]
  simp only [place, hx, ha, hcompare, Option.bind_eq_bind, Option.bind_some, child_link,
    data_link]
  by_cases h₁ : Toward s.other (cmp e.key key)
  · rw [if_pos h₁, if_pos h₁]
  · rw [if_neg h₁, if_neg h₁]
    by_cases h₂ : Toward s (cmp e.key key) ∧ compareRoot cmp key inner ≠ some 0
    · rw [if_pos h₂, if_pos h₂]
    · rw [if_neg h₂, if_neg h₂]

theorem attach_of_cells (key : K) (value : Option V)
    (hs : nodes.cells = (join s .leaf u x d).cells q + F) :
    ∃ nodes', attach s nodes x key value = some nodes' ∧
      nodes'.cells = (join s (.node .leaf nodes.brk ⟨key, value, 0, 0⟩ .leaf) u x
        (d.setH s (d.h s + 1))).cells q + F := by
  rw [cells_join, cells_leaf, addr_leaf] at hs
  set leaf : AvltNode K V := ⟨none, none, none, ⟨key, value, 0, 0⟩⟩
  have h₀ : (nodes.alloc leaf).1.cells = {(x, link s none u.addr q d)} +
      ({(nodes.brk, leaf)} + (u.cells (some x) + F)) := by
    rw [Heap.cells_alloc, hs]
    abel
  obtain ⟨nodes₁, hmod₁, h₁⟩ := Heap.modify_of_cells (·.setChild s (some nodes.brk)) h₀
  rw [setChild_link, add_left_comm] at h₁
  obtain ⟨nodes₂, hmod₂, h₂⟩ := Heap.modify_of_cells (·.setParent (some x)) h₁
  rw [add_left_comm] at h₂
  obtain ⟨nodes₃, hmod₃, h₃⟩ :=
    Heap.modify_of_cells (·.mapData fun d => d.setH s (d.h s + 1)) h₂
  refine ⟨nodes₃, ?_, ?_⟩
  · simp [attach, avltNodeCreate, leaf, hmod₁, hmod₂, hmod₃]
  · rw [h₃, mapData_link, cells_join]
    simp only [PTree.cells, PTree.addr, leaf, setParent]
    abel

theorem moveInner_of_cells {inner out : PTree (AvltData K V)} {new a i : Addr}
    {e dn : AvltData K V} (hi : inner.addr = some i)
    (hs : nodes.cells = (join s (join s (join s.other inner out a e) .leaf new dn) u x
      d).cells q + F) :
    ∃ nodes', moveInner s nodes new a i = some nodes' ∧
      nodes'.cells = (join s (join s (join s.other .leaf out a (e.setH s.other 0)) inner new
        (dn.setH s.other (stored inner))) u x d).cells q + F := by
  have h₀ : nodes.cells = {(new, link s (some a) none (some x) dn)} +
      ({(a, link s.other (some i) out.addr (some new) e)} + (inner.cells (some a) +
        ({(x, link s (some new) u.addr q d)} + out.cells (some a) + u.cells (some x) + F))) := by
    rw [hs, cells_join, cells_join, cells_join, cells_leaf, addr_join, addr_join, addr_leaf, hi]
    abel
  obtain ⟨nodes₁, hmod₁, h₁⟩ := Heap.modify_of_cells (·.setChild s.other (some i)) h₀
  have h₁' : nodes₁.cells = inner.cells (some a) +
      ({(a, link s.other (some i) out.addr (some new) e)} +
        ({(new, link s (some a) (some i) (some x) dn)} +
        ({(x, link s (some new) u.addr q d)} + out.cells (some a) + u.cells (some x) + F))) := by
    rw [h₁, setChild_other_link]
    abel
  obtain ⟨nodes₂, hmod₂, h₂⟩ := setParentOf_of_cells h₁' (some new)
  rw [hi] at hmod₂
  rw [add_left_comm] at h₂
  obtain ⟨nodes₃, hmod₃, h₃⟩ := Heap.modify_of_cells
    (fun m => (m.setChild s.other none).mapData (·.setH s.other 0)) h₂
  have h₃' : nodes₃.cells = inner.cells (some new) +
      ({(new, link s (some a) (some i) (some x) dn)} +
        ({(a, link s.other none out.addr (some new) (e.setH s.other 0))} +
        ({(x, link s (some new) u.addr q d)} + out.cells (some a) + u.cells (some x) + F))) := by
    rw [h₃, setChild_link, mapData_link]
    abel
  obtain ⟨m, hm⟩ : ∃ m, nodes₃ i = some m ∧ m.data.height = stored inner := by
    obtain ⟨v, w, y, rfl⟩ := exists_join .left hi
    rw [cells_join, add_assoc] at h₃'
    exact ⟨_, Heap.eq_some_of_cells h₃', by rw [data_link, stored_join]⟩
  rw [add_left_comm] at h₃'
  obtain ⟨nodes₄, hmod₄, h₄⟩ :=
    Heap.modify_of_cells (·.mapData (·.setH s.other m.data.height)) h₃'
  refine ⟨nodes₄, ?_, ?_⟩
  · have hparent : nodes₁.modify i (·.setParent (some new)) = some nodes₂ := hmod₂
    simp [moveInner, hmod₁, hparent, hmod₃, hm.1, hmod₄]
  · rw [h₄, mapData_link, hm.2, cells_join, cells_join, cells_join, cells_leaf, addr_join,
      addr_join, addr_leaf, hi]
    abel

theorem splice_of_cells {inner out : PTree (AvltData K V)} {a : Addr} {e : AvltData K V}
    (key : K) (value : Option V) (moved : Bool) (hmoved : moved = true → inner ≠ .leaf)
    (hs : nodes.cells = (join s (join s.other inner out a e) u x d).cells q + F) :
    ∃ nodes' near f, splice s nodes x a key value (if moved then inner.addr else none) =
        some nodes' ∧
      spliced s key value nodes.brk moved (join s.other inner out a e) = (near, f) ∧
      f.side = s ∧
      nodes'.cells = (join s (join s near f.sibling f.addr f.data) u x d).cells q + F := by
  set leaf : AvltNode K V := ⟨none, none, none, ⟨key, value, 0, 0⟩⟩
  set dn := (⟨key, value, 0, 0⟩ : AvltData K V).setH s e.height
  have h₀ : (nodes.alloc leaf).1.cells = {(x, link s (some a) u.addr q d)} +
      ({(a, link s.other inner.addr out.addr (some x) e)} + ({(nodes.brk, leaf)} +
        (inner.cells (some a) + out.cells (some a) + u.cells (some x) + F))) := by
    rw [Heap.cells_alloc, hs, cells_join, cells_join, addr_join]
    abel
  obtain ⟨nodes₁, hmod₁, h₁⟩ := Heap.modify_of_cells (·.setChild s (some nodes.brk)) h₀
  rw [setChild_link, add_left_comm] at h₁
  have ha := Heap.eq_some_of_cells h₁
  have h₁' : nodes₁.cells = {(nodes.brk, leaf)} +
      ({(a, link s.other inner.addr out.addr (some x) e)} +
        ({(x, link s (some nodes.brk) u.addr q d)} +
        (inner.cells (some a) + out.cells (some a) + u.cells (some x) + F))) := by
    rw [h₁]
    abel
  obtain ⟨nodes₂, hmod₂, h₂⟩ := Heap.modify_of_cells
    (fun n => ((n.setParent (some x)).setChild s (some a)).mapData (·.setH s e.height)) h₁'
  have hnew : ((leaf.setParent (some x)).setChild s (some a)).mapData (·.setH s e.height) =
      link s (some a) none (some x) dn := by
    cases s <;> rfl
  rw [hnew, add_left_comm] at h₂
  obtain ⟨nodes₃, hmod₃, h₃⟩ := Heap.modify_of_cells (·.setParent (some nodes.brk)) h₂
  rw [setParent_link] at h₃
  have h₃' : nodes₃.cells = (join s (join s (join s.other inner out a e) .leaf nodes.brk dn)
      u x d).cells q + F := by
    rw [h₃, cells_join, cells_join, cells_join, cells_leaf, addr_join, addr_join, addr_leaf]
    abel
  have hrun : ∀ moved, splice s nodes x a key value moved =
      moved.elim (some nodes₃) fun inner => moveInner s nodes₃ nodes.brk a inner := by
    intro moved
    simp only [splice, avltNodeCreate, Heap.alloc_snd, Option.bind_eq_bind]
    rw [hmod₁, Option.bind_some, ha, Option.bind_some]
    simp only [parent_link, data_link]
    rw [hmod₂, Option.bind_some, hmod₃]
    cases moved <;> rfl
  cases moved with
  | false =>
      refine ⟨nodes₃, _, _, hrun none, spliced_join false inner out a e, rfl, h₃'⟩
  | true =>
      obtain ⟨i, hi⟩ := Option.ne_none_iff_exists'.mp fun h => hmoved rfl (addr_eq_none h)
      obtain ⟨nodes₄, hmove, h₄⟩ := moveInner_of_cells hi h₃'
      refine ⟨nodes₄, _, _, ?_, spliced_join true inner out a e, rfl, h₄⟩
      rw [if_pos rfl, hi, hrun]
      exact hmove

end Cells

/-! ## The whole search -/

/-- What the loop of `avlt_add` has to do, given what happens to the addressed tree. -/
def Places (tree : Avlt K V) (rest : Multiset (Addr × AvltNode K V)) :
    Option (PTree (AvltData K V) × List (Frame (AvltData K V))) →
      Option (Option (Heap (AvltNode K V) × Addr)) → Prop
  | none, r => r = some none
  | some p, r => ∃ nodes a, r = some (some (nodes, a)) ∧ p.1.addr = some a ∧
      At { tree with nodes := nodes } p.1 p.2 rest

theorem addFrom_spec {tree : Avlt K V} {rest : Multiset (Addr × AvltNode K V)}
    (cmp : K → K → ℤ) (key : K) (value : Option V) :
    ∀ (fuel : ℕ) (t : PTree (AvltData K V)) (fs : List (Frame (AvltData K V))) (x : Addr),
      t.height < fuel → t.addr = some x → At tree t fs rest →
      Places tree rest (insertAt cmp key value tree.nodes.brk t fs)
        (addFrom cmp key value fuel tree.nodes x) := by
  intro fuel
  induction fuel with
  | zero => exact fun _ _ _ hlt => absurd hlt (Nat.not_lt_zero _)
  | succ fuel ih =>
      intro T fs x hlt hx h
      obtain ⟨l, r, d, rfl⟩ := exists_join .left hx
      generalize hs : sideFor (cmp key d.key) = s
      obtain ⟨t, u, heq⟩ := node_eq_join l x d r s
      rw [join, heq] at h hlt ⊢
      have hcells := h.nodes_join
      have hn : tree.nodes x = some (link s t.addr u.addr (parentOf fs) d) := by
        rw [cells_join, add_assoc] at hcells
        exact Heap.eq_some_of_cells hcells
      by_cases hc : cmp key d.key = 0
      · rw [insertAt_of_eq_zero hc]
        simp [Places, addFrom, hn, hc]
      have hside : (if cmp key d.key < 0 then Side.left else Side.right) = s := hs
      have hroot := h.root_join
      rw [insertAt_join hc hs]
      simp only [addFrom, hn, Option.bind_eq_bind, Option.bind_some, data_link, if_neg hc]
      rw [hside]
      cases t with
      | leaf =>
          obtain ⟨nodes', hattach, h'⟩ := attach_of_cells key value hcells
          rw [place_of_leaf hcells]
          simp only [spot, compareRoot, Option.bind_some, hattach]
          refine ⟨nodes', x, rfl, addr_join _ _ _ _ _, ?_, ?_⟩
          · rw [addr_join]
            exact h'
          · rw [addr_join]
            exact hroot
      | node tl a e tr =>
          obtain ⟨inner, out, heq'⟩ := node_eq_join tl a e tr s.other
          rw [heq'] at h hcells hlt ⊢
          rw [place_of_join hcells]
          cases hspot : spot cmp s key (join s.other inner out a e) with
          | descend =>
              refine ih _ _ a ?_ (addr_join _ _ _ _ _) (at_cons.mpr h)
              rw [height_join] at hlt
              omega
          | attach => exact absurd hspot (spot_join_ne_attach inner out a e)
          | present => rfl
          | splice moved =>
              have hmoved : moved = true → inner ≠ .leaf := by
                rintro rfl rfl
                cases (spot_join_eq_splice hspot).2.2
              obtain ⟨nodes', near, f, hsplice, hspliced, hfside, h'⟩ :=
                splice_of_cells key value moved hmoved hcells
              have hnear : near.addr = some a := by
                rw [spliced_join] at hspliced
                cases moved with
                | false =>
                    cases hspliced
                    exact addr_join _ _ _ _ _
                | true =>
                    cases hspliced
                    exact addr_join _ _ _ _ _
              subst hfside
              simp only [Option.bind_some, hsplice, hspliced]
              refine ⟨nodes', a, rfl, hnear, at_cons.mpr (at_cons.mpr ⟨?_, ?_⟩)⟩
              · rw [addr_join]
                exact h'
              · rw [addr_join]
                exact hroot

/-! ## Where the key goes -/

theorem toward_sideFor {c : ℤ} (hc : c ≠ 0) : Toward (sideFor c) c := by
  rw [sideFor]
  by_cases hneg : c < 0
  · rw [if_pos hneg]
    exact hneg
  · rw [if_neg hneg]
    show 0 < c
    omega

/-- The ways in which a key is added at a position: as a leaf, or between a node and its
child, above the whole inner subtree or above none of it. -/
inductive Inserted (cmp : K → K → ℤ) (key : K) (value : Option V) (new : Addr) :
    PTree (AvltData K V) → List (Frame (AvltData K V)) → PTree (AvltData K V) →
      List (Frame (AvltData K V)) → Prop where
  | descend {s : Side} {t u t' : PTree (AvltData K V)} {x : Addr} {d : AvltData K V}
      {fs fs' : List (Frame (AvltData K V))} (hkey : Toward s (cmp key d.key))
      (hspot : spot cmp s key t = .descend)
      (h : Inserted cmp key value new t (⟨s, x, d, u⟩ :: fs) t' fs') :
      Inserted cmp key value new (join s t u x d) fs t' fs'
  | attach {s : Side} {u : PTree (AvltData K V)} {x : Addr} {d : AvltData K V}
      {fs : List (Frame (AvltData K V))} (hkey : Toward s (cmp key d.key)) :
      Inserted cmp key value new (join s .leaf u x d) fs
        (join s (.node .leaf new ⟨key, value, 0, 0⟩ .leaf) u x (d.setH s (d.h s + 1))) fs
  | above {s : Side} {inner out u : PTree (AvltData K V)} {a x : Addr}
      {e d : AvltData K V} {fs : List (Frame (AvltData K V))}
      (hkey : Toward s (cmp key d.key)) (hchild : Toward s (cmp e.key key))
      (hspot : spot cmp s key (join s.other inner out a e) = .splice false) :
      Inserted cmp key value new (join s (join s.other inner out a e) u x d) fs
        (join s.other inner out a e)
        (⟨s, new, (⟨key, value, 0, 0⟩ : AvltData K V).setH s e.height, .leaf⟩ ::
          ⟨s, x, d, u⟩ :: fs)
  | between {s : Side} {inner out u : PTree (AvltData K V)} {a x : Addr}
      {e d : AvltData K V} {fs : List (Frame (AvltData K V))}
      (hkey : Toward s (cmp key d.key)) (hchild : Toward s (cmp e.key key))
      (hspot : spot cmp s key (join s.other inner out a e) = .splice true) :
      Inserted cmp key value new (join s (join s.other inner out a e) u x d) fs
        (join s.other .leaf out a (e.setH s.other 0))
        (⟨s, new, ((⟨key, value, 0, 0⟩ : AvltData K V).setH s e.height).setH s.other
          (stored inner), inner⟩ :: ⟨s, x, d, u⟩ :: fs)

theorem inserted_of_insertAt (t : PTree (AvltData K V)) :
    ∀ (fs fs' : List (Frame (AvltData K V))) (t' : PTree (AvltData K V)),
      insertAt cmp key value new t fs = some (t', fs') →
      Inserted cmp key value new t fs t' fs' := by
  induction t using PTree.induct_sides with
  | hleaf => exact fun _ _ _ => nofun
  | hjoin l x d r ih =>
      intro fs fs' t' h
      by_cases hc : cmp key d.key = 0
      · obtain ⟨t, u, heq⟩ := node_eq_join l x d r .left
        rw [heq, insertAt_of_eq_zero hc] at h
        cases h
      have hkey := toward_sideFor hc
      generalize hs : sideFor (cmp key d.key) = s at hkey
      obtain ⟨t, u, heq⟩ := node_eq_join l x d r s
      have iht := ih s t u heq
      rw [heq] at h ⊢
      rw [insertAt_join hc hs] at h
      cases t with
      | leaf =>
          cases h
          exact Inserted.attach hkey
      | node tl a e tr =>
          obtain ⟨inner, out, heq'⟩ := node_eq_join tl a e tr s.other
          rw [heq'] at h iht ⊢
          cases hspot : spot cmp s key (join s.other inner out a e) with
          | descend =>
              rw [hspot] at h
              exact Inserted.descend hkey hspot (iht _ _ _ h)
          | attach => exact absurd hspot (spot_join_ne_attach inner out a e)
          | present =>
              rw [hspot] at h
              cases h
          | splice moved =>
              obtain ⟨hchild, -⟩ := spot_join_eq_splice hspot
              rw [hspot] at h
              simp only [spliced_join] at h
              cases moved with
              | false =>
                  cases h
                  exact Inserted.above hkey hchild hspot
              | true =>
                  cases h
                  exact Inserted.between hkey hchild hspot

/-- Balancing can start where the key was added. -/
theorem Inserted.balanced {t t' : PTree (AvltData K V)}
    {fs fs' : List (Frame (AvltData K V))} (h : Inserted cmp key value new t fs t' fs')
    (ht : Balanced t) (hfs : SiblingsBalanced fs) :
    (∃ s u v x d, t' = join s u v x d ∧ Balanced u ∧ Balanced v) ∧
      SiblingsBalanced fs' := by
  have hcons : ∀ {f : Frame (AvltData K V)} {fs}, Balanced f.sibling → SiblingsBalanced fs →
      SiblingsBalanced (f :: fs) := by
    intro f fs hf hfs g hg
    rcases List.mem_cons.mp hg with rfl | hmem
    · exact hf
    · exact hfs g hmem
  induction h with
  | descend hkey hspot h ih =>
      obtain ⟨ht, hu, -⟩ := balanced_join.mp ht
      exact ih ht (hcons hu hfs)
  | attach hkey =>
      obtain ⟨-, hu, -⟩ := balanced_join.mp ht
      refine ⟨⟨_, _, _, _, _, rfl, ?_, hu⟩, hfs⟩
      exact ⟨trivial, trivial, rfl, rfl, Nat.zero_le _, Nat.zero_le _⟩
  | above hkey hchild hspot =>
      obtain ⟨ht, hu, -⟩ := balanced_join.mp ht
      obtain ⟨hi, ho, -⟩ := balanced_join.mp ht
      exact ⟨⟨_, _, _, _, _, rfl, hi, ho⟩, hcons trivial (hcons hu hfs)⟩
  | between hkey hchild hspot =>
      obtain ⟨ht, hu, -⟩ := balanced_join.mp ht
      obtain ⟨hi, ho, -⟩ := balanced_join.mp ht
      exact ⟨⟨_, _, _, _, _, rfl, trivial, ho⟩, hcons hi (hcons hu hfs)⟩

/-! ## The call -/

theorem avltAdd_leaf (cmp : K → K → ℤ) {tree : Avlt K V} (h : Represents tree .leaf) (key : K)
    (value : Option V) :
    ∃ tree', avltAdd cmp tree key value = some (tree', 0) ∧
      Represents tree' (.node .leaf tree.nodes.brk ⟨key, value, 0, 0⟩ .leaf) := by
  have hroot : tree.root = none := h.root
  refine ⟨{ tree with
    nodes := (avltNodeCreate tree.nodes key value).1
    root := some tree.nodes.brk }, ?_, ?_, ?_⟩
  · simp only [avltAdd, hroot]
    rfl
  · show (tree.nodes.alloc _).1.cells = _
    rw [Heap.cells_alloc, h.cells]
    rfl
  · rfl

theorem avltAdd_node (cmp : K → K → ℤ) {tree : Avlt K V} {T : PTree (AvltData K V)} (h : Represents tree T)
    (hbal : Balanced T) (hne : T ≠ .leaf) (key : K) (value : Option V) :
    (insertAt cmp key value tree.nodes.brk T [] = none ∧
      avltAdd cmp tree key value = some (tree, -1)) ∨
    ∃ t fs tree' T', Inserted cmp key value tree.nodes.brk T [] t fs ∧
      avltAdd cmp tree key value = some (tree', 0) ∧ Represents tree' T' ∧ Balanced T' ∧
      entries T' = entries (plug t fs) := by
  obtain ⟨x, hx⟩ := Option.ne_none_iff_exists'.mp fun haddr => hne (addr_eq_none haddr)
  have hroot : tree.root = some x := h.root.trans hx
  have hfuel : T.height < tree.nodes.brk + 1 :=
    Nat.lt_succ_of_le ((height_le_size T).trans (size_le_brk h.cells))
  have hplaces := addFrom_spec cmp key value _ T [] x hfuel hx h
  cases hins : insertAt cmp key value tree.nodes.brk T [] with
  | none =>
      rw [hins] at hplaces
      have hadd : addFrom cmp key value (tree.nodes.brk + 1) tree.nodes x = some none := hplaces
      exact Or.inl ⟨rfl, by simp [avltAdd, hroot, hadd]⟩
  | some p =>
      obtain ⟨t, fs⟩ := p
      rw [hins] at hplaces
      obtain ⟨nodes, a, hadd, haddr, hat⟩ := hplaces
      have hinserted := inserted_of_insertAt T _ _ _ hins
      obtain ⟨⟨s, u, v, y, d, rfl, hu, hv⟩, hsib⟩ := hinserted.balanced hbal nofun
      rw [addr_join] at haddr
      cases haddr
      obtain ⟨tree', T', hrun, hat', hbal', hentries⟩ := avltBalance_spec hat hu hv hsib
      refine Or.inr ⟨_, fs, tree', T', hinserted, ?_, hat', hbal', hentries⟩
      rw [hroot] at hrun
      simp [avltAdd, hroot, hadd, hrun]

end AvlTree
end LibHL
