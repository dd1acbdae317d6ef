import LibHL.AvlTree.Balance
import LibHL.Support.TreeSearch

/-!
# Removing a key

The search ends at a position of the addressed tree.  A node with two children exchanges
its key and its value with a neighbour below it that has at most one child; the node that
then holds the key is cut out, and balancing starts at its parent.
-/

namespace LibHL
namespace AvlTree

open LinkedNode PTree AvltData

variable {K V : Type} {tree : Avlt K V} {fs : List (Frame (AvltData K V))}
  {rest : Multiset (Addr × AvltNode K V)} {s : Side} {t u v : PTree (AvltData K V)}
  {x y : Addr} {d : AvltData K V}

/-! ## Positions of one tree -/

theorem at_iff_plug : At tree t fs rest ↔ At tree (plug t fs) [] rest := by
  rw [at_iff_placed, at_iff_placed, placed_plug]

theorem balanced_of_plug (h : Balanced (plug t fs)) : Balanced t ∧ SiblingsBalanced fs := by
  induction fs generalizing t with
  | nil => exact ⟨h, nofun⟩
  | cons f fs ih =>
      obtain ⟨hjoin, hfs⟩ := ih h
      obtain ⟨ht, hf, -⟩ := balanced_join.mp hjoin
      refine ⟨ht, ?_⟩
      intro g hg
      rcases List.mem_cons.mp hg with rfl | hmem
      · exact hf
      · exact hfs g hmem

theorem At.node_eq (h : At tree (join s t u x d) fs rest) :
    tree.nodes x = some (link s t.addr u.addr (parentOf fs) d) :=
  (at_iff_placed.mp h).node_eq

/-- What the node at a position stores can be changed there. -/
theorem At.modify_data (h : At tree (join s t u x d) fs rest)
    (f : AvltData K V → AvltData K V) :
    ∃ nodes, tree.nodes.modify x (·.mapData f) = some nodes ∧
      At { tree with nodes := nodes } (join s t u x (f d)) fs rest := by
  obtain ⟨nodes, hmod, h'⟩ := (at_iff_placed.mp h).modify_data f
  exact ⟨nodes, hmod, at_iff_placed.mpr h'⟩

/-! ## The search -/

/-- Where the search ends. -/
def findAt (cmp : K → K → ℤ) (key : K) : PTree (AvltData K V) →
    List (Frame (AvltData K V)) → Option (PTree (AvltData K V) × List (Frame (AvltData K V)))
  | .leaf, _ => none
  | .node l x d r, fs =>
      if cmp d.key key < 0 then findAt cmp key r (⟨.right, x, d, l⟩ :: fs)
      else if 0 < cmp d.key key then findAt cmp key l (⟨.left, x, d, r⟩ :: fs)
      else some (.node l x d r, fs)

variable (cmp : K → K → ℤ) (key : K)

/-- The search ends at a position of the same tree, at a node with an equal key. -/
theorem findAt_eq_some (t : PTree (AvltData K V)) :
    ∀ (fs fs' : List (Frame (AvltData K V))) (t' : PTree (AvltData K V)),
      findAt cmp key t fs = some (t', fs') →
      plug t' fs' = plug t fs ∧ ∃ l x d r, t' = .node l x d r ∧ cmp d.key key = 0 := by
  induction t with
  | leaf => exact fun _ _ _ => nofun
  | node l x d r ihl ihr =>
      intro fs fs' t' h
      rw [findAt] at h
      by_cases h₁ : cmp d.key key < 0
      · rw [if_pos h₁] at h
        exact ihr _ _ _ h
      · rw [if_neg h₁] at h
        by_cases h₂ : 0 < cmp d.key key
        · rw [if_pos h₂] at h
          exact ihl _ _ _ h
        · rw [if_neg h₂] at h
          cases h
          exact ⟨rfl, l, x, d, r, rfl, by omega⟩

theorem findFrom_spec : ∀ (fuel : ℕ) (t : PTree (AvltData K V))
    (fs : List (Frame (AvltData K V))), t.height < fuel → At tree t fs rest →
    findFrom cmp key fuel tree.nodes t.addr =
      some ((findAt cmp key t fs).bind fun p => p.1.addr) := by
  intro fuel
  induction fuel with
  | zero => exact fun _ _ hlt => absurd hlt (Nat.not_lt_zero _)
  | succ fuel ih =>
      intro t fs hlt h
      cases t with
      | leaf => rfl
      | node l x d r =>
          have hx : tree.nodes x = some ⟨l.addr, r.addr, parentOf fs, d⟩ :=
            At.node_eq (s := .left) h
          have hleft : At tree l (⟨.left, x, d, r⟩ :: fs) rest := at_cons.mpr h
          have hright : At tree r (⟨.right, x, d, l⟩ :: fs) rest := at_cons.mpr h
          rw [PTree.height] at hlt
          simp only [PTree.addr, findFrom, hx, Option.bind_eq_bind, Option.bind_some]
          rw [findAt]
          by_cases h₁ : cmp d.key key < 0
          · rw [if_pos h₁, if_pos h₁]
            exact ih r _ (by omega) hright
          · rw [if_neg h₁, if_neg h₁]
            by_cases h₂ : 0 < cmp d.key key
            · rw [if_pos h₂, if_pos h₂]
              exact ih l _ (by omega) hleft
            · rw [if_neg h₂, if_neg h₂]
              rfl

/-! ## The neighbour -/

/-- Following the children on one side ends at a node without a child there. -/
theorem last_spec : ∀ (fuel : ℕ) (t : PTree (AvltData K V))
    (fs : List (Frame (AvltData K V))) (x : Addr), t.height < fuel → t.addr = some x →
    At tree t fs rest →
    ∃ y u e path, last s tree.nodes fuel x = some y ∧ t = plug (join s .leaf u y e) path ∧
      ∀ f ∈ path, f.side = s := by
  intro fuel
  induction fuel with
  | zero => exact fun _ _ _ hlt => absurd hlt (Nat.not_lt_zero _)
  | succ fuel ih =>
      intro t fs x hlt hx h
      obtain ⟨t, u, d, rfl⟩ := exists_join s hx
      have hn := h.node_eq
      rw [height_join] at hlt
      cases ht : t.addr with
      | none =>
          obtain rfl := addr_eq_none ht
          exact ⟨x, u, d, [], by simp [last, hn], rfl, nofun⟩
      | some c =>
          obtain ⟨y, w, e, path, hlast, hplug, hside⟩ :=
            ih t (⟨s, x, d, u⟩ :: fs) c (by omega) ht (at_cons.mpr h)
          refine ⟨y, w, e, path ++ [⟨s, x, d, u⟩], ?_, ?_, ?_⟩
          · simp [last, hn, ht, hlast]
          · rw [plug_append, ← hplug]
            rfl
          · intro f hf
            rcases List.mem_append.mp hf with hmem | hmem
            · exact hside f hmem
            · rw [List.mem_singleton.mp hmem]

/-- The neighbour below on a side has no child on the other side. -/
theorem findNear_spec (h : At tree (join s t u x d) fs rest) (ht : t ≠ .leaf) :
    ∃ y v e path, findNear s tree.nodes x = some (some y) ∧
      t = plug (join s.other .leaf v y e) path ∧ ∀ f ∈ path, f.side = s.other := by
  obtain ⟨c, hc⟩ := Option.ne_none_iff_exists'.mp fun haddr => ht (addr_eq_none haddr)
  have hn := h.node_eq
  have hat : At tree t (⟨s, x, d, u⟩ :: fs) rest := at_cons.mpr h
  have hfuel : t.height < tree.nodes.brk + 1 :=
    Nat.lt_succ_of_le ((height_le_size t).trans (size_le_brk hat.cells))
  obtain ⟨y, v, e, path, hlast, hplug, hside⟩ := last_spec (s := s.other) _ t _ c hfuel hc hat
  refine ⟨y, v, e, path, ?_, hplug, hside⟩
  simp [findNear, hn, hc, hlast]

theorem exchange_of_leaf (h : At tree (join s .leaf u x d) fs rest) :
    exchange tree.nodes x = some (some (tree.nodes, x)) := by
  have hn := h.node_eq
  rw [addr_leaf] at hn
  have hnot : ¬ ((link s none u.addr (parentOf fs) d).left.isSome ∧
      (link s none u.addr (parentOf fs) d).right.isSome) := by
    cases s
    · exact fun h => nomatch h.1
    · exact fun h => nomatch h.2
  simp only [exchange, hn, Option.bind_eq_bind, Option.bind_some, if_neg hnot]

/-- A node with two children takes the key and the value of a neighbour, on the side that
its stored heights tell. -/
theorem exchange_of_node {l r : PTree (AvltData K V)}
    (h : At tree (.node l x d r) fs rest) (hl : l ≠ .leaf) (hr : r ≠ .leaf) :
    ∃ s t u nodes y v e path, PTree.node l x d r = join s t u x d ∧
      t = plug (join s.other .leaf v y e) path ∧ (∀ f ∈ path, f.side = s.other) ∧
      exchange tree.nodes x = some (some (nodes, y)) ∧
      At { tree with nodes := nodes }
        (join s.other .leaf v y { e with key := d.key, value := d.value })
        (path ++ ⟨s, x, { d with key := e.key, value := e.value }, u⟩ :: fs) rest := by
  have hl' := Option.isSome_iff_ne_none.mpr fun haddr => hl (addr_eq_none haddr)
  have hr' := Option.isSome_iff_ne_none.mpr fun haddr => hr (addr_eq_none haddr)
  have hx : tree.nodes x = some ⟨l.addr, r.addr, parentOf fs, d⟩ :=
    At.node_eq (s := .left) h
  obtain ⟨s, t, u, heq, ht, hchoice⟩ : ∃ s t u, PTree.node l x d r = join s t u x d ∧
      t ≠ .leaf ∧ findNeighbour tree.nodes x d = findNear s tree.nodes x := by
    by_cases hhigh : d.hr < d.hl
    · exact ⟨.left, l, r, rfl, hl, if_pos hhigh⟩
    · exact ⟨.right, r, l, rfl, hr, if_neg hhigh⟩
  rw [heq] at h
  obtain ⟨y, v, e, path, hnear, hplug, hside⟩ := findNear_spec h ht
  -- The neighbour is read where it is before anything is written.
  have hbelow : ∀ {tree : Avlt K V} {d : AvltData K V}, At tree (join s t u x d) fs rest →
      At tree (join s.other .leaf v y e) (path ++ ⟨s, x, d, u⟩ :: fs) rest := by
    intro tree d hat
    rw [at_iff_plug, plug_append, ← hplug]
    exact at_iff_plug.mp (at_cons.mpr hat)
  have hy := (hbelow h).node_eq
  obtain ⟨nodes₁, hmod₁, h₁⟩ :=
    h.modify_data fun d => { d with key := e.key, value := e.value }
  obtain ⟨nodes₂, hmod₂, h₂⟩ :=
    (hbelow h₁).modify_data fun c => { c with key := d.key, value := d.value }
  refine ⟨s, t, u, nodes₂, y, v, e, path, heq, hplug, hside, ?_, h₂⟩
  simp only [exchange, hx, hl', hr', Option.bind_eq_bind, Option.bind_some, and_self, if_true,
    hchoice, hnear, hy, data_link, hmod₁, hmod₂]

/-! ## Cutting a node out -/

/-- The only child of a node, from either of its child pointers. -/
theorem or_link (s : Side) (c p : Option Addr) (d : AvltData K V) :
    (link s none c p d).left.or (link s none c p d).right = c ∧
      (link s none c p d).right.or (link s none c p d).left = c := by
  cases s <;> cases c <;> exact ⟨rfl, rfl⟩

theorem isNone_link (s : Side) (c p : Option Addr) (d : AvltData K V) :
    (link s none c p d).left.isNone ∨ (link s none c p d).right.isNone := by
  cases s
  · exact Or.inl rfl
  · exact Or.inr rfl

theorem unlink_root (h : At tree (join s .leaf v y d) [] rest) :
    ∃ tree' n, unlink tree y = some tree' ∧ n.data = d ∧
      At tree' v [] ({(y, n)} + rest) := by
  have hy := h.node_eq
  rw [addr_leaf, parentOf_nil] at hy
  have hcells : tree.nodes.cells = v.cells (some y) +
      ({(y, link s none v.addr none d)} + rest) := by
    rw [h.nodes_join, cells_join, cells_leaf, addr_leaf, frameCells_nil, parentOf_nil]
    abel
  obtain ⟨nodes, hset, h'⟩ := setParentOf_of_cells hcells none
  obtain ⟨hor, -⟩ := or_link s v.addr none d
  refine ⟨{ tree with nodes := nodes, root := v.addr }, _, ?_, data_link s none v.addr none d,
    ?_, rfl⟩
  · simp only [unlink, hy, Option.bind_eq_bind, Option.bind_some,
      if_pos (isNone_link s v.addr none d), parent_link, hor, hset]
  · rw [frameCells_nil, zero_add]
    exact h'

theorem unlink_below {f : Frame (AvltData K V)}
    (h : At tree (join s .leaf v y d) (f :: fs) rest) (hv : Balanced v)
    (hfs : SiblingsBalanced (f :: fs)) :
    ∃ tree' T n, unlink tree y = some tree' ∧ n.data = d ∧ At tree' T [] ({(y, n)} + rest) ∧
      Balanced T ∧ entries T = entries (plug v (f :: fs)) := by
  have hy := h.node_eq
  rw [addr_leaf, parentOf_cons] at hy
  set n : AvltNode K V := link s none v.addr (some f.addr) d
  have hcells : tree.nodes.cells =
      {(f.addr, link f.side (some y) f.sibling.addr (parentOf fs) f.data)} +
        (f.sibling.cells (some f.addr) + (v.cells (some y) + ({(y, n)} +
          (frameCells (some f.addr) fs + rest)))) := by
    rw [h.nodes_join, cells_join, cells_leaf, addr_leaf, frameCells, parentOf_cons]
    abel
  have hne : f.sibling.addr ≠ some y := by
    refine addr_ne_of_cells (n := n) (p := some f.addr)
      (s := {(f.addr, link f.side (some y) f.sibling.addr (parentOf fs) f.data)} +
        v.cells (some y) + (frameCells (some f.addr) fs + rest)) (hcells.trans ?_)
    abel
  obtain ⟨hor, hor'⟩ := or_link s v.addr (some f.addr) d
  obtain ⟨nodes₁, hmod, h₁⟩ := Heap.modify_of_cells (fun p : AvltNode K V =>
    if p.left = some y then p.setChild .left v.addr else p.setChild .right v.addr) hcells
  have hset : (if (link f.side (some y) f.sibling.addr (parentOf fs) f.data).left = some y
      then (link f.side (some y) f.sibling.addr (parentOf fs) f.data).setChild .left v.addr
      else (link f.side (some y) f.sibling.addr (parentOf fs) f.data).setChild .right v.addr) =
        link f.side v.addr f.sibling.addr (parentOf fs) f.data := by
    cases hside : f.side with
    | left => exact if_pos rfl
    | right => exact if_neg hne
  rw [hset] at h₁
  have h₁' : nodes₁.cells = v.cells (some y) +
      ({(f.addr, link f.side v.addr f.sibling.addr (parentOf fs) f.data)} +
        (f.sibling.cells (some f.addr) + ({(y, n)} +
          (frameCells (some f.addr) fs + rest)))) := by
    rw [h₁]
    abel
  obtain ⟨nodes₂, hparent, h₂⟩ := setParentOf_of_cells h₁' (some f.addr)
  have hat : At { tree with nodes := nodes₂ } (join f.side v f.sibling f.addr f.data) fs
      ({(y, n)} + rest) := by
    refine ⟨?_, ?_⟩
    · rw [cells_join, addr_join, h₂]
      abel
    · rw [addr_join, h.root_join]
      rfl
  obtain ⟨tree', T, hrun, hat', hbal, hentries⟩ := avltBalance_spec hat hv
    (hfs f List.mem_cons_self) fun g hg => hfs g (List.mem_cons_of_mem f hg)
  refine ⟨tree', T, n, ?_, data_link _ _ _ _ _, hat', hbal, hentries⟩
  simp only [unlink, hy, Option.bind_eq_bind, Option.bind_some,
    if_pos (isNone_link s v.addr (some f.addr) d), parent_link, hor, hor', hmod, hparent, n]
  exact hrun

theorem unlink_spec (h : At tree (join s .leaf v y d) fs rest) (hv : Balanced v)
    (hfs : SiblingsBalanced fs) :
    ∃ tree' T n, unlink tree y = some tree' ∧ n.data = d ∧ At tree' T [] ({(y, n)} + rest) ∧
      Balanced T ∧ entries T = entries (plug v fs) := by
  cases fs with
  | nil =>
      obtain ⟨tree', n, hrun, hn, hat⟩ := unlink_root h
      exact ⟨tree', v, n, hrun, hn, hat, hv, rfl⟩
  | cons f fs => exact unlink_below h hv hfs

/-! ## The call -/

theorem avltRemove_absent {T : PTree (AvltData K V)} (h : Represents tree T)
    (hfind : findAt cmp key T [] = none) (wantsValue : Bool) :
    avltRemove cmp tree key wantsValue = some (tree, ⟨0, none, none⟩) := by
  have hroot : tree.root = T.addr := h.root
  have hfuel : T.height < tree.nodes.brk + 1 :=
    Nat.lt_succ_of_le ((height_le_size T).trans (size_le_brk h.cells))
  have hrun := findFrom_spec cmp key _ T [] hfuel h
  rw [hfind] at hrun
  simp [avltRemove, hroot, hrun]

/-- What is stored around a place takes no part in a change below it. -/
theorem without_plug {t t' : PTree (AvltData K V)} {a : K × Option V}
    (h : Without a (entries t) (entries t')) (fs : List (Frame (AvltData K V))) :
    Without a (entries (plug t fs)) (entries (plug t' fs)) := by
  obtain ⟨A, B, hAB⟩ := exists_values_plug fs
  simp only [entries, hAB, List.map_append]
  exact h.around _ _

/-- The position of the node that is cut out, after the exchange if there is one: it has
the key and the value of the node found, which are what the tree loses. -/
theorem exchange_spec {l r : PTree (AvltData K V)} (h : At tree (.node l x d r) fs rest)
    (hl : Balanced l) (hr : Balanced r) (hfs : SiblingsBalanced fs) :
    ∃ nodes y s v e fs', exchange tree.nodes x = some (some (nodes, y)) ∧
      At { tree with nodes := nodes } (join s .leaf v y e) fs' rest ∧ e.entry = d.entry ∧
      Balanced v ∧ SiblingsBalanced fs' ∧
      Without d.entry (entries (plug (.node l x d r) fs)) (entries (plug v fs')) := by
  cases l with
  | leaf =>
      refine ⟨tree.nodes, x, .left, r, d, fs, exchange_of_leaf (s := .left) h, h, rfl, hr, hfs, ?_⟩
      exact without_plug (without_middle d.entry [] (entries r)) fs
  | node ll a dl lr =>
      cases r with
      | leaf =>
          refine ⟨tree.nodes, x, .right, _, d, fs, exchange_of_leaf (s := .right) h, h, rfl, hl,
            hfs, without_plug ?_ fs⟩
          have hw := without_middle d.entry (entries (.node ll a dl lr)) []
          rw [List.append_nil] at hw
          rwa [entries, values, List.map_append]
      | node rl b dr rr =>
          obtain ⟨s, t, u, nodes, y, v, e, path, heq, hplug, hside, hrun, hat⟩ :=
            exchange_of_node h (fun hleaf => by cases hleaf) (fun hleaf => by cases hleaf)
          have hparts : Balanced t ∧ Balanced u := by
            cases s with
            | left =>
                cases heq
                exact ⟨hl, hr⟩
            | right =>
                cases heq
                exact ⟨hr, hl⟩
          rw [hplug] at hparts
          obtain ⟨hjoin, hpath⟩ := balanced_of_plug hparts.1
          refine ⟨nodes, y, s.other, v, _, _, hrun, hat, rfl, (balanced_join.mp hjoin).2.1, ?_, ?_⟩
          · intro f hf
            rcases List.mem_append.mp hf with hmem | hmem
            · exact hpath f hmem
            · rcases List.mem_cons.mp hmem with rfl | hmem
              · exact hparts.2
              · exact hfs f hmem
          · rw [heq, hplug, plug_append]
            refine without_plug ?_ fs
            exact without_neighbour AvltData.entry hside rfl

theorem avltRemove_present {T : PTree (AvltData K V)} (h : Represents tree T)
    (hbal : Balanced T) {l r : PTree (AvltData K V)}
    (hfind : findAt cmp key T [] = some (.node l x d r, fs)) (wantsValue : Bool) :
    ∃ tree' T', avltRemove cmp tree key wantsValue =
        some (tree', handOver tree'.freeValueCb wantsValue d.value) ∧
      Represents tree' T' ∧ Balanced T' ∧ Without d.entry (entries T) (entries T') := by
  have hroot : tree.root = T.addr := h.root
  have hfuel : T.height < tree.nodes.brk + 1 :=
    Nat.lt_succ_of_le ((height_le_size T).trans (size_le_brk h.cells))
  have hrun := findFrom_spec cmp key _ T [] hfuel h
  rw [hfind] at hrun
  have hfound : findFrom cmp key (tree.nodes.brk + 1) tree.nodes T.addr = some (some x) := hrun
  obtain ⟨hplug, -⟩ := findAt_eq_some cmp key T _ _ _ hfind
  have hat : At tree (.node l x d r) fs 0 := by
    rw [at_iff_plug, hplug]
    exact h
  have hbal' : Balanced (plug (.node l x d r) fs) := by
    rw [hplug]
    exact hbal
  obtain ⟨hnode, hfs⟩ := balanced_of_plug hbal'
  obtain ⟨nodes, y, s, v, e, fs', hexchange, hat₁, hentry, hv, hfs', hwithout⟩ :=
    exchange_spec hat hnode.1 hnode.2.1 hfs
  obtain ⟨tree₂, T', n, hunlink, hn, hat₂, hT', hentries⟩ := unlink_spec hat₁ hv hfs'
  rw [hplug, plug, ← hentries] at hwithout
  have hcells : tree₂.nodes.cells = {(y, n)} + T'.cells none := by
    rw [hat₂.cells, parentOf_nil, frameCells_nil]
    abel
  have hy := Heap.eq_some_of_cells hcells
  obtain ⟨nodes', hfree, h'⟩ := Heap.free_of_cells hcells
  have hvalue : n.data.value = d.value := by
    rw [hn]
    exact congrArg Prod.snd hentry
  refine ⟨{ tree₂ with nodes := nodes' }, T', ?_, ⟨?_, hat₂.root⟩, hT', hwithout⟩
  · rw [hroot] at hunlink
    simp only [avltRemove, hroot, hfound, Option.bind_eq_bind, Option.bind_some, hexchange,
      hunlink, hy, hfree, hvalue]
  · rw [h', parentOf_nil, frameCells_nil, add_zero, add_zero]

end AvlTree
end LibHL
