import LibHL.RbTree.WalkVisits
import LibHL.Support.ShapedTree

/-!
# Deleting during a walk

A node that the callback wants to have deleted stays in the tree if it has at most one child.
If it has two, the walk begins again at the node, and in order this is too late: the left
subtree has been walked already.  So only a walk that deletes nothing does what it is for.
-/

namespace LibHL
namespace RbTree

open LinkedNode PTree RbtData

variable {V σ : Type}

/-! ## What is asked -/

/-- What a walk is for, if its callback answers 1 or -1: it calls the callback once for every
entry, and it leaves the entries that were answered by 1. -/
def DeletesAsAsked (T : PTree (RbtData V)) (answer : List UInt8 × ℕ × Option V → ℤ)
    (run : Option (Walk V σ × ℤ)) : Prop :=
  ∃ s r T', run = some (s, r) ∧ Represents s.tree T' ∧
    (s.calls.map Prod.fst).Perm (T.values.map entry) ∧
    T'.values.map entry = (T.values.map entry).filter fun e => answer e = 1

/-- The entries that the callback was called with show that the walk went wrong: one of them
occurs twice, or is one that no whole tree has. -/
def Spoiled (es : List (List UInt8 × ℕ × Option V)) : Prop :=
  ¬ es.Nodup ∨ ∃ e ∈ es, e.1.length ≠ e.2.1

section Spoiled

variable {es fs : List (List UInt8 × ℕ × Option V)} {e : List UInt8 × ℕ × Option V}

theorem Spoiled.of_prefix (h : Spoiled es) (hle : es <+: fs) : Spoiled fs := by
  rcases h with hdup | ⟨e, he, hlen⟩
  · exact Or.inl fun hnodup => hdup (hnodup.sublist hle.sublist)
  · exact Or.inr ⟨e, hle.subset he, hlen⟩

theorem spoiled_of_again (he : e ∈ es) (hle : es ++ [e] <+: fs) : Spoiled fs := by
  refine Spoiled.of_prefix (Or.inl fun hnodup => ?_) hle
  exact (List.disjoint_of_nodup_append hnodup) he (List.mem_singleton_self e)

theorem spoiled_of_length (he : e.1.length ≠ e.2.1) (hle : es ++ [e] <+: fs) : Spoiled fs :=
  Or.inr ⟨e, hle.subset (List.mem_append_right es (List.mem_singleton_self e)), he⟩

end Spoiled

/-! ## The first call of a walk in order -/

section FirstCall

variable {cmp : List UInt8 → List UInt8 → ℤ} {mem : Bool}
  {cb : σ → List UInt8 × ℕ × Option V → σ × ℤ} {sorted : Bool}
  {walk : Walk V σ → Option Addr → Option (Walk V σ × ℤ)} {s t : Walk V σ} {node : Addr}
  {n : RbtNode V} {rc r : ℤ} {fuel : ℕ}

theorem walk_grows {a : Addr}
    (h : rbtWalkInternal cmp mem cb sorted fuel s (some a) = some (t, r)) : s.calls <+: t.calls :=
  (walk_walked fuel s a t r h).calls

/-- The visit of a node begins with the call for the node. -/
theorem visit_first (hn : s.tree.nodes node = some n)
    (h : visit cmp mem cb sorted (rbtWalkInternal cmp mem cb sorted fuel) node s rc =
      some (t, r)) : s.calls.map Prod.fst ++ [n.data.entry] <+: t.calls.map Prod.fst := by
  obtain ⟨s₁, code, hcb, hcases⟩ := visit_cases h
  have hcalls : s₁.calls = s.calls ++ [(n.data.entry, code)] := by
    simp only [callback, hn, Option.bind_eq_bind, Option.bind_some, Option.some.injEq,
      Prod.mk.injEq] at hcb
    obtain ⟨rfl, rfl⟩ := hcb
    rfl
  have hlater : s₁.calls <+: t.calls := by
    rcases hcases with ⟨-, hremove, -⟩ | ⟨-, s₂, a, h₂, hagain⟩ | ⟨-, -, rfl, -⟩ | ⟨-, rfl, -⟩ |
      ⟨-, -, -, hrest⟩
    · rw [removeVisited_calls hremove]
    · rw [← h₂]
      exact walk_grows hagain
    · exact List.prefix_refl _
    · exact List.prefix_refl _
    · exact walkRest_grows (fun _ _ _ _ => walk_grows) hrest
  have hmap := hlater.map Prod.fst
  rwa [hcalls, List.map_append] at hmap

/-- The walk of a node in order begins with the call for the leftmost node below it. -/
theorem walk_first : ∀ (u : PTree (RbtData V)) (fuel : ℕ) (s : Walk V σ) (a : Addr)
    (t : Walk V σ) (r : ℤ), Shaped s.tree.nodes u → u.addr = some a →
    rbtWalkInternal cmp mem cb true fuel s (some a) = some (t, r) →
    ∃ d, u.values.head? = some d ∧
      s.calls.map Prod.fst ++ [d.entry] <+: t.calls.map Prod.fst := by
  intro u
  induction u with
  | leaf =>
      intro fuel s a t r _ ha
      cases ha
  | node l b d v ihl _ =>
      intro fuel s a t r hshape ha h
      cases ha
      obtain ⟨⟨p, hn⟩, hl, -⟩ := hshape
      cases fuel with
      | zero => cases h
      | succ fuel =>
          rw [rbtWalkInternal, hn, Option.bind_eq_bind, Option.bind_some, if_pos rfl] at h
          rcases walkChild_cases h with ⟨hleaf, hvisit⟩ | ⟨a, s', rrc, hchild, hwalk, hends⟩
          · obtain rfl := addr_eq_none hleaf
            exact ⟨d, rfl, visit_first hn hvisit⟩
          · obtain ⟨e, he, hfirst⟩ := ihl fuel s a s' rrc hl hchild hwalk
            refine ⟨e, ?_, hfirst.trans ?_⟩
            · rw [values, List.head?_append, he]
              rfl
            · refine List.IsPrefix.map Prod.fst ?_
              rcases hends with ⟨-, -, rfl⟩ | ⟨-, n, -, hvisit⟩
              · exact List.prefix_refl _
              · exact (visit_grows (fun _ _ _ _ => walk_grows) hvisit).1

end FirstCall

/-! ## Removing the node that the walk begins again at -/

section Removal

variable {tree : Rbt V} {T l r u v : PTree (RbtData V)} {fs path : List (Frame (RbtData V))}
  {x y : Addr} {d e : RbtData V} {s : Side}

theorem shaped_of_represents (h : Represents tree T) : Shaped tree.nodes T := by
  refine shaped_of_cells (p := none) ?_
  intro c hc
  rw [← h.cells] at hc
  exact Heap.mem_cells.mp hc

/-- The leftmost node below `x` has been walked with the left subtree `l`, or its entry is one
that no whole tree has. -/
def BeginsBadly (tree : Rbt V) (x : Addr) (l : PTree (RbtData V)) : Prop :=
  ∃ u e, Shaped tree.nodes u ∧ u.addr = some x ∧ u.values.head? = some e ∧
    (e.entry ∈ l.values.map entry ∨ e.entry.1.length ≠ e.entry.2.1)

theorem exists_head_of_ne_leaf (hl : l ≠ .leaf) : ∃ e, l.values.head? = some e := by
  cases l with
  | leaf => exact absurd rfl hl
  | node ll a d lr =>
      cases hvalues : ll.values with
      | nil => exact ⟨d, by rw [values, hvalues]; rfl⟩
      | cons e es => exact ⟨e, by rw [values, hvalues]; rfl⟩

theorem beginsBadly_of_left (h : Shaped tree.nodes (.node l x d r)) (hl : l ≠ .leaf) :
    BeginsBadly tree x l := by
  obtain ⟨e, he⟩ := exists_head_of_ne_leaf hl
  refine ⟨_, e, h, rfl, ?_, Or.inl (List.mem_map_of_mem (List.mem_of_mem_head? he))⟩
  rw [values, List.head?_append, he]
  rfl

theorem beginsBadly_of_moved (h : Shaped tree.nodes (.node (plug v path) x (takeOver d e) r))
    (hlen : e.key.length = e.klen) : BeginsBadly tree x (plug (.node v y e .leaf) path) := by
  obtain ⟨A, B, hAB⟩ := exists_values_plug path
  have hmem : ∀ g, g ∈ (plug v path).values ∨ g = e →
      g.entry ∈ (plug (.node v y e .leaf) path).values.map entry := by
    intro g hg
    refine List.mem_map_of_mem ?_
    rw [hAB] at hg ⊢
    rcases hg with hg | rfl
    · simp only [values, List.mem_append] at hg ⊢
      tauto
    · simp [values]
  cases hvalues : (plug v path).values with
  | nil =>
      refine ⟨_, takeOver d e, h, rfl, ?_, ?_⟩
      · rw [values, hvalues]
        rfl
      · by_cases hklen : e.klen = d.klen
        · refine Or.inl ?_
          have hentry : (takeOver d e).entry = e.entry := by
            rw [takeOver, entry, entry, hklen]
          rw [hentry]
          exact hmem e (Or.inr rfl)
        · exact Or.inr fun hbad => hklen (hlen.symm.trans hbad)
  | cons g gs =>
      refine ⟨_, g, h, rfl, ?_, Or.inl (hmem g (Or.inl ?_))⟩
      · rw [values, hvalues]
        rfl
      · rw [hvalues]
        exact List.mem_cons_self

theorem removeInner_beginsBadly (mem : Bool) (h : Represents tree (plug (.node l x d r) fs))
    (hwhole : Whole (plug (.node l x d r) fs)) (hl : l ≠ .leaf) (hr : r ≠ .leaf) :
    ∃ tree' answer, removeInner mem tree x false = some (tree', answer) ∧
      BeginsBadly tree' x l := by
  obtain ⟨s, hs⟩ : ∃ s, neighbourSide tree.prevnext = s := ⟨_, rfl⟩
  obtain ⟨t, u, hjoin⟩ := node_eq_join l x d r s
  have ht := ne_leaf_of_sides hl hr hjoin
  cases mem with
  | false =>
      have hshape : Shaped tree.nodes (.node l x d r) := shaped_of_plug (shaped_of_represents h)
      rw [hjoin] at h
      exact ⟨_, _, removeInner_no_memory h hs ht false, beginsBadly_of_left hshape hl⟩
  | true =>
      rw [hjoin] at h hwhole
      have hplaced := represents_plug.mp h
      obtain ⟨y, v, e, path, hnear, hplug, hside⟩ := findNear_spec hplaced ht
      have hwholet : Whole t := (whole_join.mp (whole_plug hwhole)).1
      rw [hplug] at hwholet
      have hlen : e.key.length = e.klen := (whole_join.mp (whole_plug hwholet)).2.1
      obtain ⟨nodes', hrun, hcells⟩ := removeInner_spec hplaced hs hnear hplug hside hlen false
      obtain ⟨hnodes, -⟩ := handOver_fields
        { tree with nodes := nodes', prevnext := tree.prevnext + 1 } false d.value
      refine ⟨_, _, hrun, ?_⟩
      have hread : ∀ c ∈ nodes'.cells, nodes' c.1 = some c.2 := fun c hc => Heap.mem_cells.mp hc
      rw [hcells, add_zero] at hread
      have hshape : Shaped nodes' (join s (plug v path) u x (takeOver d e)) := by
        have hall := shaped_plug (shaped_of_cells fun c hc =>
          hread c (Multiset.mem_add.mpr (Or.inl hc))) fun c hc =>
            hread c (Multiset.mem_add.mpr (Or.inr hc))
        rw [plug_append] at hall
        exact shaped_of_plug hall
      rw [← show (handOver { tree with nodes := nodes', prevnext := tree.prevnext + 1 } false
        d.value).1.nodes = nodes' from hnodes] at hshape
      cases s with
      | left =>
          cases hjoin
          rw [hplug]
          exact beginsBadly_of_moved hshape hlen
      | right =>
          cases hjoin
          exact beginsBadly_of_left hshape hl

/-- A visited node with two children is removed, but the walk of it begins badly then. -/
theorem removeVisited_beginsBadly (c : Comparator (List UInt8)) (mem : Bool) {s : Walk V σ}
    (h : Represents s.tree (plug (.node l x d r) fs)) (hwhole : Whole (plug (.node l x d r) fs))
    (hord : Ordered c RbtData.key (plug (.node l x d r) fs)) (hl : l ≠ .leaf) (hr : r ≠ .leaf) :
    ∃ s', removeVisited c.cmp mem s x = some s' ∧ s'.calls = s.calls ∧
      BeginsBadly s'.tree x l := by
  have hnode := (represents_plug.mp h).node_eq (s := .left)
  have hbytes := bytes_of_length (whole_join (s := .left).mp (whole_plug hwhole)).2.1
  obtain ⟨tree', answer, hrun, hbad⟩ := removeInner_beginsBadly mem h hwhole hl hr
  rw [← rbtRemove_of_two_children c h hwhole hord hl hr (c.self_eq_zero d.key)] at hrun
  refine ⟨{ s with tree := tree' }, ?_, rfl, hbad⟩
  simp only [removeVisited, hnode, data_link, hbytes, hrun, Option.bind_eq_bind, Option.bind_some]

end Removal

/-! ## A walk in order that deletes -/

/-- The walk of a subtree left the tree as it was and called the callback for every node. -/
structure Unchanged (s s' : Walk V σ) (t : PTree (RbtData V)) (r : ℤ) : Prop where
  tree : s'.tree = s.tree
  calls : s'.calls.map Prod.fst = s.calls.map Prod.fst ++ t.values.map entry
  pos : t ≠ .leaf → 1 ≤ r

section InOrder

variable {c : Comparator (List UInt8)} {mem : Bool}
  {cb : σ → List UInt8 × ℕ × Option V → σ × ℤ} {sorted : Bool} {s s' : Walk V σ}
  {walk : Walk V σ → Option Addr → Option (Walk V σ × ℤ)} {l t u : PTree (RbtData V)}
  {fs : List (Frame (RbtData V))} {rest : Multiset (Addr × RbtNode V)} {root : Option Addr}
  {a : Addr} {d : RbtData V} {rc r : ℤ} {fuel : ℕ}

theorem visit_of_answer (cmp : List UInt8 → List UInt8 → ℤ) (mem : Bool)
    (cb : σ → List UInt8 × ℕ × Option V → σ × ℤ) (sorted : Bool)
    (walk : Walk V σ → Option Addr → Option (Walk V σ × ℤ)) (rc : ℤ)
    (h : Placed s.tree.nodes root (.node l a d u) fs rest)
    (hcode : (cb s.user d.entry).2 = 1 ∨ (cb s.user d.entry).2 = -1) :
    ∃ s₁ : Walk V σ, s₁.tree = s.tree ∧
      s₁.calls.map Prod.fst = s.calls.map Prod.fst ++ [d.entry] ∧
      visit cmp mem cb sorted walk a s rc =
        if (cb s.user d.entry).2 = 1 then walkRest sorted walk a s₁ rc
        else if l.addr.isSome ∧ u.addr.isSome then
          (removeVisited cmp mem s₁ a).bind fun s₂ => walk s₂ (some a)
        else if l.addr.isSome ∨ u.addr.isSome then
          walk s₁ (if l.addr.isSome then l.addr else u.addr)
        else some (s₁, 1) := by
  have hnode := h.node_eq (s := .left)
  refine ⟨{ s with
    user := (cb s.user d.entry).1
    calls := s.calls ++ [(d.entry, (cb s.user d.entry).2)] }, rfl, List.map_append, ?_⟩
  simp only [visit, callback_eq cb h, Option.bind_eq_bind, Option.bind_some]
  rcases hcode with hcode | hcode
  · simp [hcode]
  · simp [hcode, hnode, link]

/-- The walk of the left subtree again. -/
theorem spoiled_of_left (hshape : Shaped s.tree.nodes l) (hl : l ≠ .leaf)
    (hcalls : ∀ e ∈ l.values.map entry, e ∈ s.calls.map Prod.fst)
    (hrun : rbtWalkInternal c.cmp mem cb true fuel s l.addr = some (s', r)) :
    Spoiled (s'.calls.map Prod.fst) := by
  obtain ⟨b, hb⟩ := Option.ne_none_iff_exists'.mp fun haddr => hl (addr_eq_none haddr)
  rw [hb] at hrun
  obtain ⟨e, he, hfirst⟩ := walk_first l fuel s b s' r hshape hb hrun
  exact spoiled_of_again (hcalls _ (List.mem_map_of_mem (List.mem_of_mem_head? he))) hfirst

/-- The walk of a node with two children again. -/
theorem spoiled_of_beginsBadly (hbad : BeginsBadly s.tree a l)
    (hcalls : ∀ e ∈ l.values.map entry, e ∈ s.calls.map Prod.fst)
    (hrun : rbtWalkInternal c.cmp mem cb true fuel s (some a) = some (s', r)) :
    Spoiled (s'.calls.map Prod.fst) := by
  obtain ⟨v, e, hshape, haddr, hhead, hcase⟩ := hbad
  obtain ⟨e', he', hfirst⟩ := walk_first v fuel s a s' r hshape haddr hrun
  rw [hhead] at he'
  cases he'
  rcases hcase with hmem | hlen
  · exact spoiled_of_again (hcalls _ hmem) hfirst
  · exact spoiled_of_length hlen hfirst

/-- The walk of the right subtree after an answer to continue. -/
theorem walkRest_unchanged (h : Placed s.tree.nodes root (.node l a d u) fs rest) (hpos : 1 ≤ rc)
    (hright : ∀ s₂ n, walk s u.addr = some (s₂, n) →
      Unchanged s s₂ u n ∨ Spoiled (s₂.calls.map Prod.fst))
    (hrun : walkRest true walk a s rc = some (s', r)) :
    (1 ≤ r ∧ ∃ n, Unchanged s s' u n) ∨ Spoiled (s'.calls.map Prod.fst) := by
  have hnode := h.node_eq (s := .left)
  have hchild : walkChild walk s u.addr rc (fun s rc => some (s, rc)) = some (s', r) := by
    simpa only [walkRest, hnode, link, walkChild, Option.bind_eq_bind, Option.bind_some, if_true,
      Option.isSome_none, Bool.false_eq_true, if_false] using hrun
  rcases walkChild_cases hchild with ⟨hnone, heq⟩ | ⟨b, s₂, rrc, hb, hwalk, hends⟩
  · cases heq
    obtain rfl := addr_eq_none hnone
    exact Or.inl ⟨hpos, 1, rfl, (List.append_nil _).symm, fun _ => le_refl _⟩
  · have hu : u ≠ .leaf := by
      rintro rfl
      cases hb
    rw [← hb] at hwalk
    rcases hright s₂ rrc hwalk with hunchanged | hspoiled
    · have hrrc := hunchanged.pos hu
      rcases hends with ⟨hzero, -, -⟩ | ⟨-, n, hadd, heq⟩
      · omega
      · cases heq
        obtain ⟨hn, -⟩ := addCount_eq_some hadd
        exact Or.inl ⟨by omega, rrc, hunchanged⟩
    · rcases hends with ⟨-, -, rfl⟩ | ⟨-, n, -, heq⟩
      · exact Or.inr hspoiled
      · cases heq
        exact Or.inr hspoiled

/-- What is done after an answer to delete. -/
theorem delete_unchanged (h : Represents s.tree (plug (.node l a d u) fs))
    (hwhole : Whole (plug (.node l a d u) fs))
    (hord : Ordered c RbtData.key (plug (.node l a d u) fs))
    (hcalls : ∀ e ∈ l.values.map entry, e ∈ s.calls.map Prod.fst)
    (hright : ∀ s₂ n, rbtWalkInternal c.cmp mem cb true fuel s u.addr = some (s₂, n) →
      Unchanged s s₂ u n ∨ Spoiled (s₂.calls.map Prod.fst))
    (hrun : (if l.addr.isSome ∧ u.addr.isSome then
        (removeVisited c.cmp mem s a).bind fun s₂ =>
          rbtWalkInternal c.cmp mem cb true fuel s₂ (some a)
      else if l.addr.isSome ∨ u.addr.isSome then
        rbtWalkInternal c.cmp mem cb true fuel s (if l.addr.isSome then l.addr else u.addr)
      else some (s, 1)) = some (s', r)) :
    (1 ≤ r ∧ ∃ n, Unchanged s s' u n) ∨ Spoiled (s'.calls.map Prod.fst) := by
  have hleaf : ¬ (PTree.leaf : PTree (RbtData V)).addr.isSome := Bool.false_ne_true
  have haddr : ∀ {t : PTree (RbtData V)}, t ≠ .leaf → t.addr.isSome := fun ht =>
    Option.isSome_iff_ne_none.mpr fun hnone => ht (addr_eq_none hnone)
  by_cases hl : l = .leaf
  · subst hl
    rw [if_neg fun hboth => hleaf hboth.1] at hrun
    by_cases hu : u = .leaf
    · subst hu
      rw [if_neg (not_or.mpr ⟨hleaf, hleaf⟩)] at hrun
      cases hrun
      exact Or.inl ⟨le_refl _, 1, rfl, (List.append_nil _).symm, fun _ => le_refl _⟩
    · rw [if_pos (Or.inr (haddr hu)), if_neg hleaf] at hrun
      rcases hright s' r hrun with hunchanged | hspoiled
      · exact Or.inl ⟨hunchanged.pos hu, r, hunchanged⟩
      · exact Or.inr hspoiled
  · right
    by_cases hu : u = .leaf
    · subst hu
      rw [if_neg fun hboth => hleaf hboth.2, if_pos (Or.inl (haddr hl)), if_pos (haddr hl)] at hrun
      exact spoiled_of_left (shaped_of_plug (shaped_of_represents h)).2.1 hl hcalls hrun
    · obtain ⟨s₂, hremove, hcalls₂, hbad⟩ := removeVisited_beginsBadly c mem h hwhole hord hl hu
      rw [if_pos ⟨haddr hl, haddr hu⟩, hremove, Option.bind_some] at hrun
      exact spoiled_of_beginsBadly hbad (hcalls₂ ▸ hcalls) hrun

/-- A node that is visited after its left subtree. -/
theorem visit_unchanged (h : Represents s.tree (plug (.node l a d u) fs))
    (hwhole : Whole (plug (.node l a d u) fs))
    (hord : Ordered c RbtData.key (plug (.node l a d u) fs))
    (hcode : ∀ user e, (cb user e).2 = 1 ∨ (cb user e).2 = -1)
    (hcalls : ∀ e ∈ l.values.map entry, e ∈ s.calls.map Prod.fst) (hpos : 1 ≤ rc)
    (hright : ∀ s₁ s₂ r, s₁.tree = s.tree →
      rbtWalkInternal c.cmp mem cb true fuel s₁ u.addr = some (s₂, r) →
      Unchanged s₁ s₂ u r ∨ Spoiled (s₂.calls.map Prod.fst))
    (hrun : visit c.cmp mem cb true (rbtWalkInternal c.cmp mem cb true fuel) a s rc =
      some (s', r)) :
    (s'.tree = s.tree ∧ 1 ≤ r ∧ s'.calls.map Prod.fst =
        s.calls.map Prod.fst ++ d.entry :: u.values.map entry) ∨
      Spoiled (s'.calls.map Prod.fst) := by
  have hplaced := represents_plug.mp h
  obtain ⟨s₁, htree, hcalls₁, hvisit⟩ := visit_of_answer c.cmp mem cb true
    (rbtWalkInternal c.cmp mem cb true fuel) rc hplaced (hcode _ _)
  have hbefore : ∀ e ∈ l.values.map entry, e ∈ s₁.calls.map Prod.fst := by
    intro e he
    rw [hcalls₁]
    exact List.mem_append_left _ (hcalls e he)
  have hsteps : (1 ≤ r ∧ ∃ n, Unchanged s₁ s' u n) ∨ Spoiled (s'.calls.map Prod.fst) := by
    rw [hvisit] at hrun
    rw [← htree] at h hplaced
    by_cases hone : (cb s.user d.entry).2 = 1
    · rw [if_pos hone] at hrun
      exact walkRest_unchanged hplaced hpos (fun s₂ n => hright s₁ s₂ n htree) hrun
    · rw [if_neg hone] at hrun
      exact delete_unchanged h hwhole hord hbefore (fun s₂ n => hright s₁ s₂ n htree) hrun
  rcases hsteps with ⟨hr, n, hunchanged⟩ | hspoiled
  · refine Or.inl ⟨hunchanged.tree.trans htree, hr, ?_⟩
    rw [hunchanged.calls, hcalls₁, List.append_assoc]
    rfl
  · exact Or.inr hspoiled

/-- A walk in order deletes nothing, or its calls show that it went wrong. -/
theorem walk_unchanged (mem : Bool) (hcode : ∀ user e, (cb user e).2 = 1 ∨ (cb user e).2 = -1) :
    ∀ (t : PTree (RbtData V)) (fuel : ℕ) (fs : List (Frame (RbtData V))) (s s' : Walk V σ)
      (r : ℤ), Represents s.tree (plug t fs) → Whole (plug t fs) →
      Ordered c RbtData.key (plug t fs) →
      rbtWalkInternal c.cmp mem cb true fuel s t.addr = some (s', r) →
      Unchanged s s' t r ∨ Spoiled (s'.calls.map Prod.fst) := by
  intro t
  induction t with
  | leaf =>
      intro fuel fs s s' r _ _ _ hrun
      have heq : some (s, (0 : ℤ)) = some (s', r) := by
        cases fuel with
        | zero => exact hrun
        | succ fuel => exact hrun
      cases heq
      exact Or.inl ⟨rfl, (List.append_nil _).symm, fun hne => absurd rfl hne⟩
  | node l a d u ihl ihu =>
      intro fuel fs s s' r h hwhole hord hrun
      cases fuel with
      | zero => cases hrun
      | succ fuel =>
          rw [addr, walkNode_eq fuel (represents_plug.mp h), if_pos rfl] at hrun
          have hright : ∀ s₀ : Walk V σ, s₀.tree = s.tree → ∀ s₁ s₂ r, s₁.tree = s₀.tree →
              rbtWalkInternal c.cmp mem cb true fuel s₁ u.addr = some (s₂, r) →
              Unchanged s₁ s₂ u r ∨ Spoiled (s₂.calls.map Prod.fst) := by
            intro s₀ h₀ s₁ s₂ r h₁ hwalk
            refine ihu fuel (⟨.right, a, d, l⟩ :: fs) s₁ s₂ r ?_ hwhole hord hwalk
            rw [h₁, h₀]
            exact h
          rcases walkChild_cases hrun with ⟨hnone, hvisit⟩ | ⟨b, s₁, rrc, hb, hwalk, hends⟩
          · obtain rfl := addr_eq_none hnone
            rcases visit_unchanged h hwhole hord hcode (fun e he => by cases he) (le_refl 1)
              (hright s rfl) hvisit with ⟨htree, hpos, hcalls⟩ | hspoiled
            · exact Or.inl ⟨htree, hcalls, fun _ => hpos⟩
            · exact Or.inr hspoiled
          · have hl : l ≠ .leaf := by
              rintro rfl
              cases hb
            rw [← hb] at hwalk
            rcases ihl fuel (⟨.left, a, d, u⟩ :: fs) s s₁ rrc h hwhole hord hwalk with
              hunchanged | hspoiled
            · have hrrc := hunchanged.pos hl
              rcases hends with ⟨hzero, -, -⟩ | ⟨-, n, hadd, hvisit⟩
              · omega
              · obtain ⟨hn, -⟩ := addCount_eq_some hadd
                have hleft : ∀ e ∈ l.values.map entry, e ∈ s₁.calls.map Prod.fst := by
                  intro e he
                  rw [hunchanged.calls]
                  exact List.mem_append_right _ he
                rcases visit_unchanged (hunchanged.tree ▸ h) hwhole hord hcode hleft (by omega)
                  (hright s₁ hunchanged.tree) hvisit with ⟨htree, hpos, hcalls⟩ | hspoiled
                · refine Or.inl ⟨htree.trans hunchanged.tree, ?_, fun _ => hpos⟩
                  rw [hcalls, hunchanged.calls, values, List.map_append, List.append_assoc,
                    List.map_cons]
                · exact Or.inr hspoiled
            · refine Or.inr (hspoiled.of_prefix (List.IsPrefix.map Prod.fst ?_))
              rcases hends with ⟨-, -, rfl⟩ | ⟨-, n, -, hvisit⟩
              · exact List.prefix_refl _
              · exact (visit_grows (fun _ _ _ _ => walk_grows) hvisit).1

end InOrder

/-! ## When the walks delete what they are asked to -/

section Deletes

variable {c : Comparator (List UInt8)} {cmp : List UInt8 → List UInt8 → ℤ} {mem : Bool}
  {cb : σ → List UInt8 × ℕ × Option V → σ × ℤ} {sorted : Bool} {tree tree' : Rbt V} {user : σ}
  {T T' : PTree (RbtData V)} {answer : List UInt8 × ℕ × Option V → ℤ} {r : ℤ} {s : Walk V σ}

/-- A walk whose callback always answers 1 leaves the tree as it is, and counts all nodes. -/
theorem walkTree_of_ones (cmp : List UInt8 → List UInt8 → ℤ) (mem sorted : Bool) (user : σ)
    (h : Represents tree T) (hone : ∀ u, ∀ e ∈ T.values.map entry, (cb u e).2 = 1) :
    ∃ s : Walk V σ, s.tree = tree ∧ (s.calls.map Prod.fst).Perm (T.values.map entry) ∧
      Leads (walkTree cmp mem cb sorted tree user) (some (s, T.size)) T.size := by
  obtain ⟨s, htree, hcalls, hleads⟩ := walkTree_of_neverAsks cmp mem sorted user h
    fun u e he => by rw [hone u e he]; decide
  refine ⟨s, htree, ?_, hleads⟩
  rw [hcalls]
  exact perm_entries_places sorted T

theorem size_eq_of_represents (h : Represents tree T) (h' : Represents tree T') :
    T'.size = T.size := by
  rw [← card_cells T' none, ← card_cells T none, ← h.cells, ← h'.cells]

theorem nodup_entries (hord : Ordered c RbtData.key T) : (T.values.map entry).Nodup := by
  refine List.pairwise_map.mpr (hord.imp ?_)
  intro d e hlt heq
  have hkey : d.key = e.key := congrArg Prod.fst heq
  rw [hkey, c.self_eq_zero] at hlt
  exact Int.lt_irrefl 0 hlt

theorem not_spoiled (hwhole : Whole T) (hord : Ordered c RbtData.key T)
    {es : List (List UInt8 × ℕ × Option V)} (hes : es.Perm (T.values.map entry)) :
    ¬ Spoiled es := by
  rintro (hdup | ⟨e, he, hlen⟩)
  · exact hdup (hes.nodup_iff.mpr (nodup_entries hord))
  · obtain ⟨d, hd, rfl⟩ := List.mem_map.mp (hes.mem_iff.mp he)
    exact hlen (hwhole d hd)

theorem filter_of_ones (hone : ∀ e ∈ T.values.map entry, answer e = 1) :
    ((T.values.map entry).filter fun e => answer e = 1) = T.values.map entry :=
  List.filter_eq_self.mpr fun e he => decide_eq_true (hone e he)

/-- If the walk in order does what it is for, then nothing is deleted. -/
theorem ones_of_deletes (mem : Bool) (h : Represents tree T) (hwhole : Whole T)
    (hord : Ordered c RbtData.key T) (hcode : ∀ u e, (cb u e).2 = 1 ∨ (cb u e).2 = -1)
    (hdeletes : DeletesAsAsked T answer (rbtWalkSorted c.cmp mem cb tree user)) :
    ∀ e ∈ T.values.map entry, answer e = 1 := by
  obtain ⟨s, r, T', hrun, h', hcalls, hentries⟩ := hdeletes
  rw [rbtWalkSorted, walkTree_eq h] at hrun
  rcases walk_unchanged mem hcode T _ [] ⟨tree, user, []⟩ s r h hwhole hord hrun with
    hunchanged | hspoiled
  · have hsize := size_eq_of_represents h (hunchanged.tree ▸ h')
    have hlength : ((T.values.map entry).filter fun e => answer e = 1).length =
        (T.values.map entry).length := by
      rw [← hentries, List.length_map, List.length_map, length_values, length_values, hsize]
    intro e he
    exact of_decide_eq_true (List.length_filter_eq_length_iff.mp hlength e he)
  · exact absurd hspoiled (not_spoiled hwhole hord hcalls)

theorem deletes_of_ones (cmp : List UInt8 → List UInt8 → ℤ) (mem sorted : Bool) (user : σ)
    (h : Represents tree T) (hanswer : ∀ u e, (cb u e).2 = answer e)
    (hone : ∀ e ∈ T.values.map entry, answer e = 1) (hsmall : T.size < 2 ^ 31) :
    DeletesAsAsked T answer (walkTree cmp mem cb sorted tree user) := by
  obtain ⟨s, htree, hcalls, hleads⟩ := walkTree_of_ones cmp mem sorted user h
    fun u e he => (hanswer u e).trans (hone e he)
  rcases hleads with hrun | ⟨-, hlarge⟩
  · exact ⟨s, T.size, T, hrun, htree ▸ h, hcalls, (filter_of_ones hone).symm⟩
  · exact absurd hsmall (Nat.not_lt.mpr hlarge)

/-- The walks call the callback once for every key and delete what it wants to have deleted
exactly if it does not want to have anything deleted, and the count is an `int`. -/
theorem walks_delete_iff (c : Comparator (List UInt8)) (mem : Bool)
    (cb : σ → List UInt8 × ℕ × Option V → σ × ℤ) (answer : List UInt8 × ℕ × Option V → ℤ)
    (tree : Rbt V) (T : PTree (RbtData V)) (user : σ) (h : Represents tree T) (hwhole : Whole T)
    (hord : Ordered c RbtData.key T) (hanswer : ∀ u e, (cb u e).2 = answer e)
    (hanswers : ∀ e, answer e = 1 ∨ answer e = -1) :
    (DeletesAsAsked T answer (rbtWalk c.cmp mem cb tree user) ∧
        DeletesAsAsked T answer (rbtWalkSorted c.cmp mem cb tree user)) ↔
      T.size < 2 ^ 31 ∧ ∀ e ∈ T.values.map entry, answer e ≠ -1 := by
  constructor
  · rintro ⟨-, hdeletes⟩
    have hcode : ∀ u e, (cb u e).2 = 1 ∨ (cb u e).2 = -1 := fun u e => hanswer u e ▸ hanswers e
    have hone := ones_of_deletes mem h hwhole hord hcode hdeletes
    refine ⟨?_, fun e he => by rw [hone e he]; decide⟩
    obtain ⟨s, r, T', hrun, -⟩ := hdeletes
    obtain ⟨s', -, -, hleads⟩ := walkTree_of_ones c.cmp mem true user h
      fun u e he => (hanswer u e).trans (hone e he)
    have hsmall := walkTree_small hrun
    rcases hleads with hrun' | ⟨hnone, -⟩
    · have heq := hrun.symm.trans hrun'
      simp only [Option.some.injEq, Prod.mk.injEq] at heq
      obtain ⟨-, rfl⟩ := heq
      exact_mod_cast hsmall
    · cases hrun.symm.trans hnone
  · rintro ⟨hsmall, hnever⟩
    have hone : ∀ e ∈ T.values.map entry, answer e = 1 := fun e he =>
      (hanswers e).resolve_right (hnever e he)
    exact ⟨deletes_of_ones c.cmp mem false user h hanswer hone hsmall,
      deletes_of_ones c.cmp mem true user h hanswer hone hsmall⟩

end Deletes

/-! ## A leaf that stays -/

/-- A tree with one key. -/
def oneKey : PTree (RbtData ℕ) := .node .leaf 0 (keyed .black [5]) .leaf

def oneKeyTree : Rbt ℕ := treeOfNodes [⟨none, none, none, keyed .black [5]⟩]

theorem represents_oneKeyTree : Represents oneKeyTree oneKey := by
  refine ⟨?_, rfl⟩
  rw [oneKeyTree, treeOfNodes, List.foldl_cons, List.foldl_nil, Heap.cells_alloc, Heap.cells_empty]
  rfl

/-- A callback that answers the same at every key. -/
def always (answer : ℤ) (_ : Unit) (_ : List UInt8 × ℕ × Option ℕ) : Unit × ℤ := ((), answer)

/-- The only key of a tree is to be deleted, but the walk leaves it where it is. -/
theorem leaf_is_not_deleted :
    ¬ ∀ (tree : Rbt ℕ) (T : PTree (RbtData ℕ)) (answer : List UInt8 × ℕ × Option ℕ → ℤ)
        (cb : Unit → List UInt8 × ℕ × Option ℕ → Unit × ℤ),
      Represents tree T → RedBlack RbtData.color T → Whole T →
      Ordered lexicographic.toComparator RbtData.key T → (∀ u e, (cb u e).2 = answer e) →
      (∀ e, answer e = 1 ∨ answer e = -1) →
      DeletesAsAsked T answer (rbtWalk lexicographic.cmp true cb tree ()) ∧
        DeletesAsAsked T answer (rbtWalkSorted lexicographic.cmp true cb tree ()) := by
  intro hall
  have hwhole : Whole oneKey := by decide
  have hord : Ordered lexicographic.toComparator RbtData.key oneKey := List.pairwise_singleton _ _
  obtain ⟨⟨s, r, T', hrun, h', -, hentries⟩, -⟩ := hall oneKeyTree oneKey (fun _ => -1)
    (always (-1)) represents_oneKeyTree (by decide) hwhole hord (fun _ _ => rfl)
    fun _ => Or.inr rfl
  have hstays : (rbtWalk lexicographic.cmp true (always (-1)) oneKeyTree ()).map
      (fun p => p.1.tree.root) = some (some 0) := by
    decide
  rw [hrun] at hstays
  have hroot : T'.addr = some 0 := h'.root_eq.symm.trans (Option.some.inj hstays)
  have hnil : T'.values = [] := List.map_eq_nil_iff.mp (hentries.trans (by decide))
  cases T' with
  | leaf => cases hroot
  | node l a d u => exact absurd hnil (List.append_ne_nil_of_right_ne_nil _ (List.cons_ne_nil _ _))

/-- The walks of three keys, with a callback that deletes all of them and one that deletes
none. -/
theorem walks_delete_iff_three :
    ¬ (DeletesAsAsked longNeighbour (fun _ => -1)
          (rbtWalk lexicographic.cmp true (always (-1)) longNeighbourTree ()) ∧
        DeletesAsAsked longNeighbour (fun _ => -1)
          (rbtWalkSorted lexicographic.cmp true (always (-1)) longNeighbourTree ())) ∧
      DeletesAsAsked longNeighbour (fun _ => 1)
          (rbtWalk lexicographic.cmp true (always 1) longNeighbourTree ()) ∧
        DeletesAsAsked longNeighbour (fun _ => 1)
          (rbtWalkSorted lexicographic.cmp true (always 1) longNeighbourTree ()) := by
  have hiff : ∀ answer : ℤ, answer = 1 ∨ answer = -1 → _ := fun answer hanswer =>
    walks_delete_iff lexicographic.toComparator true (always answer) (fun _ => answer)
      longNeighbourTree longNeighbour () represents_longNeighbourTree (by decide)
      ordered_longNeighbour (fun _ _ => rfl) fun _ => hanswer
  refine ⟨fun hdeletes => ?_, (hiff 1 (Or.inl rfl)).mpr ⟨by decide, fun _ _ => by decide⟩⟩
  obtain ⟨-, hnever⟩ := (hiff (-1) (Or.inr rfl)).mp hdeletes
  exact hnever _ (List.mem_map_of_mem List.mem_cons_self) rfl

end RbTree
end LibHL
