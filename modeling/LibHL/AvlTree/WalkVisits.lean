import LibHL.AvlTree.WalkStops
import LibHL.Support.LevelOrder

/-!
# Walks that remove nothing

As long as the callback asks neither to stop nor to remove, the tree stays as it is: the
breadth-first walk is the level order of the tree, the recursive walk its in-order.
-/

namespace LibHL
namespace AvlTree

open PTree

variable {K V σ : Type}

/-! ## The calls of a walk -/

/-- The walk after a call with an entry, from a node that the turns lead to. -/
def Walk.call (cb : σ → K × Option V → σ × ℤ) (s : Walk K V σ)
    (c : (K × Option V) × List Side) : Walk K V σ :=
  { s with
    user := (cb s.user c.1).1
    calls := s.calls ++ [⟨c.1, (cb s.user c.1).2, c.2⟩] }

/-- Calls, one after the other. -/
def Walk.callAll (cb : σ → K × Option V → σ × ℤ) (s : Walk K V σ)
    (cs : List ((K × Option V) × List Side)) : Walk K V σ :=
  cs.foldl (Walk.call cb) s

/-- The callback asks neither to stop nor to remove, at any of the entries. -/
def GoesOn (cb : σ → K × Option V → σ × ℤ) (es : List (K × Option V)) : Prop :=
  ∀ u, ∀ e ∈ es, (cb u e).2 ≠ 0 ∧ (cb u e).2 ≠ -1 ∧ (cb u e).2 ≠ -2

/-- An answer that does not simply let the walk go on. -/
def Interrupts (answer : ℤ) : Prop := answer = 0 ∨ answer = -1 ∨ answer = -2

instance (answer : ℤ) : Decidable (Interrupts answer) := inferInstanceAs (Decidable (_ ∨ _ ∨ _))

/-- The first of some calls, made one after the other, whose answer interrupts them, with that
answer. -/
def firstAnswer (cb : σ → K × Option V → σ × ℤ) :
    σ → List ((K × Option V) × List Side) → Option (((K × Option V) × List Side) × ℤ)
  | _, [] => none
  | u, c :: cs =>
      if Interrupts (cb u c.1).2 then some (c, (cb u c.1).2) else firstAnswer cb (cb u c.1).1 cs

/-- The entries in order, with the turns that lead to them. -/
def located : List Side → PTree (AvltData K V) → List ((K × Option V) × List Side)
  | _, .leaf => []
  | turns, .node l _ d r =>
      located (.left :: turns) l ++ (d.entry, turns) :: located (.right :: turns) r

section Calls

variable {cmp : K → K → ℤ} {cb : σ → K × Option V → σ × ℤ} {s : Walk K V σ}
  {c : (K × Option V) × List Side} {cs ds : List ((K × Option V) × List Side)}
  {turns : List Side} {es fs : List (K × Option V)}

@[simp] theorem callAll_nil : s.callAll cb [] = s := rfl

@[simp] theorem callAll_cons : s.callAll cb (c :: cs) = (s.call cb c).callAll cb cs := rfl

theorem callAll_append : s.callAll cb (cs ++ ds) = (s.callAll cb cs).callAll cb ds :=
  List.foldl_append

@[simp] theorem tree_call : (s.call cb c).tree = s.tree := rfl

@[simp] theorem tree_callAll : (s.callAll cb cs).tree = s.tree := by
  induction cs generalizing s with
  | nil => rfl
  | cons c cs ih => exact ih

theorem entries_callAll :
    (s.callAll cb cs).calls.map Call.entry = s.calls.map Call.entry ++ cs.map Prod.fst := by
  induction cs generalizing s with
  | nil => exact (List.append_nil _).symm
  | cons c cs ih =>
      rw [callAll_cons, ih, Walk.call, List.map_append, List.append_assoc]
      rfl

theorem entries_node (l : PTree (AvltData K V)) (a : Addr) (d : AvltData K V)
    (r : PTree (AvltData K V)) : entries (.node l a d r) = entries l ++ d.entry :: entries r :=
  List.map_append

theorem map_fst_located (t : PTree (AvltData K V)) :
    ∀ turns, (located turns t).map Prod.fst = entries t := by
  induction t with
  | leaf => exact fun _ => rfl
  | node l a d r ihl ihr =>
      intro turns
      rw [located, List.map_append, List.map_cons, ihl, ihr, entries_node]

theorem GoesOn.perm (h : GoesOn cb es) (hperm : fs.Perm es) : GoesOn cb fs :=
  fun u e he => h u e (hperm.mem_iff.mp he)

theorem goesOn_cons {e : K × Option V} :
    GoesOn cb (e :: es) ↔ GoesOn cb [e] ∧ GoesOn cb es := by
  constructor
  · intro h
    exact ⟨fun u f hf => h u f (List.mem_singleton.mp hf ▸ List.mem_cons_self),
      fun u f hf => h u f (List.mem_cons_of_mem e hf)⟩
  · rintro ⟨he, hes⟩ u f hf
    rcases List.mem_cons.mp hf with rfl | hf
    · exact he u f List.mem_cons_self
    · exact hes u f hf

theorem not_interrupts {e : K × Option V} (h : GoesOn cb [e]) (u : σ) :
    ¬ Interrupts (cb u e).2 := by
  obtain ⟨hzero, hone, htwo⟩ := h u e List.mem_cons_self
  exact not_or.mpr ⟨hzero, not_or.mpr ⟨hone, htwo⟩⟩

theorem firstAnswer_of_goesOn (h : GoesOn cb (cs.map Prod.fst)) (u : σ) :
    firstAnswer cb u cs = none := by
  induction cs generalizing u with
  | nil => rfl
  | cons c cs ih =>
      obtain ⟨hc, hcs⟩ := goesOn_cons.mp h
      rw [firstAnswer, if_neg (not_interrupts hc u)]
      exact ih hcs _

theorem firstAnswer_append : firstAnswer cb s.user (cs ++ ds) =
    (firstAnswer cb s.user cs).or (firstAnswer cb (s.callAll cb cs).user ds) := by
  induction cs generalizing s with
  | nil => rfl
  | cons c cs ih =>
      rw [List.cons_append, firstAnswer, firstAnswer, callAll_cons]
      split
      · rfl
      · exact ih (s := s.call cb c)

theorem firstAnswer_cons : firstAnswer cb s.user (c :: cs) =
    if Interrupts (cb s.user c.1).2 then some (c, (cb s.user c.1).2)
    else firstAnswer cb (s.call cb c).user cs := rfl

end Calls

/-! ## The recursive walk -/

section Sorted

variable {cmp : K → K → ℤ} {cb : σ → K × Option V → σ × ℤ} {s : Walk K V σ} {node : Addr}
  {n : AvltNode K V} {turns : List Side} {cnt m : ℤ}
  {walk : Walk K V σ → Addr → Option (Walk K V σ × ℤ)}

theorem addCount_of_lt (h : cnt + m < 2 ^ 31) : addCount cnt m = some (cnt + m) := if_pos h

theorem callback_eq (hn : s.tree.nodes node = some n) :
    callback cb s turns node =
      some (s.call cb (n.data.entry, turns), (cb s.user n.data.entry).2) := by
  rw [callback, hn]
  rfl

/-- A node whose callback goes on. -/
theorem visit_of_goesOn (hn : s.tree.nodes node = some n)
    (hgo : ¬ Interrupts (cb s.user n.data.entry).2) :
    visit cmp cb walk turns node s cnt =
      walkRight walk node (s.call cb (n.data.entry, turns)) cnt := by
  obtain ⟨hzero, hone, htwo⟩ := (not_or.mp hgo).imp_right not_or.mp
  rw [visit, callback_eq hn, Option.bind_eq_bind, Option.bind_some]
  dsimp only
  rw [if_neg hzero, if_neg hone, if_neg htwo]

theorem walkChild_of_all {t : PTree (AvltData K V)}
    {next : Walk K V σ → ℤ → Option (Walk K V σ × ℤ)}
    (hwalk : ∀ a, t.addr = some a →
      walk s a = some (s.callAll cb (located turns t), (t.size : ℤ)))
    (hcnt : cnt + t.size < 2 ^ 31) :
    walkChild walk s t.addr cnt next =
      next (s.callAll cb (located turns t)) (cnt + t.size) := by
  cases t with
  | leaf =>
      rw [size, Int.natCast_zero, add_zero]
      rfl
  | node l a d r =>
      have hne : ((node l a d r).size : ℤ) ≠ -1 := by
        have := Int.natCast_nonneg (node l a d r).size
        omega
      rw [addr, walkChild, hwalk a rfl, Option.bind_eq_bind, Option.bind_some]
      dsimp only
      rw [if_neg hne, addCount_of_lt hcnt]
      rfl

theorem ite_eq_none {α : Type} {P : Prop} [Decidable P] {x : α} {o : Option α}
    (h : (if P then some x else o) = none) : ¬ P ∧ o = none := by
  by_cases hP : P
  · rw [if_pos hP] at h
    cases h
  · rw [if_neg hP] at h
    exact ⟨hP, h⟩

/-- The root of a tree, and the cells of its two subtrees. -/
theorem cells_children {nodes : Heap (AvltNode K V)} {l r : PTree (AvltData K V)} {a : Addr}
    {d : AvltData K V} {p : Option Addr} {rest : Multiset (Addr × AvltNode K V)}
    (h : nodes.cells = (PTree.node l a d r).cells p + rest) :
    nodes a = some ⟨l.addr, r.addr, p, d⟩ ∧ (∃ restl, nodes.cells = l.cells (some a) + restl) ∧
      ∃ restr, nodes.cells = r.cells (some a) + restr := by
  rw [cells, add_assoc] at h
  refine ⟨Heap.eq_some_of_cells h, ⟨{(a, ⟨l.addr, r.addr, p, d⟩)} + (r.cells (some a) + rest), ?_⟩,
    {(a, ⟨l.addr, r.addr, p, d⟩)} + (l.cells (some a) + rest), ?_⟩
  · rw [h]
    abel
  · rw [h]
    abel

/-- The walk of a subtree: it calls the callback at all its entries in order. -/
theorem internal_visits_all : ∀ (t : PTree (AvltData K V)) (turns : List Side) (s : Walk K V σ)
    (fuel : ℕ) (a : Addr) (p : Option Addr) (rest : Multiset (Addr × AvltNode K V)),
    t.addr = some a → t.height ≤ fuel → t.size < 2 ^ 31 →
    s.tree.nodes.cells = t.cells p + rest → firstAnswer cb s.user (located turns t) = none →
    avtWalkSortedInternal cmp cb fuel turns s a =
      some (s.callAll cb (located turns t), (t.size : ℤ)) := by
  intro t
  induction t with
  | leaf =>
      intro turns s fuel a p rest ha
      cases ha
  | node l b d r ihl ihr =>
      intro turns s fuel a p rest ha hfuel hsize hs hgo
      cases ha
      rw [located, firstAnswer_append, Option.or_eq_none_iff, firstAnswer_cons] at hgo
      obtain ⟨hgol, hgo⟩ := hgo
      obtain ⟨hgod, hgor⟩ := ite_eq_none hgo
      rw [height] at hfuel
      rw [size] at hsize
      obtain ⟨fuel, rfl⟩ := Nat.exists_eq_succ_of_ne_zero (n := fuel) (by omega)
      obtain ⟨hn, ⟨restl, hl⟩, restr, hr⟩ := cells_children hs
      have hleft : walkChild (avtWalkSortedInternal cmp cb fuel (.left :: turns)) s l.addr 1
            (visit cmp cb (avtWalkSortedInternal cmp cb fuel (.right :: turns)) turns b) =
          visit cmp cb (avtWalkSortedInternal cmp cb fuel (.right :: turns)) turns b
            (s.callAll cb (located (.left :: turns) l)) (1 + l.size) := by
        refine walkChild_of_all ?_ (by omega)
        intro a ha
        exact ihl _ _ _ _ _ _ ha (by omega) (by omega) hl hgol
      have hright : walkRight (avtWalkSortedInternal cmp cb fuel (.right :: turns)) b
            ((s.callAll cb (located (.left :: turns) l)).call cb (d.entry, turns)) (1 + l.size) =
          some (((s.callAll cb (located (.left :: turns) l)).call cb (d.entry, turns)).callAll cb
            (located (.right :: turns) r), (1 + l.size + r.size : ℤ)) := by
        rw [walkRight, tree_call, tree_callAll, hn, Option.bind_eq_bind, Option.bind_some]
        refine walkChild_of_all ?_ (by omega)
        intro a ha
        refine ihr _ _ _ _ (some b) restr ha (by omega) (by omega) ?_ hgor
        rw [tree_call, tree_callAll]
        exact hr
      rw [avtWalkSortedInternal, hn, Option.bind_eq_bind, Option.bind_some, hleft,
        visit_of_goesOn (n := ⟨l.addr, r.addr, p, d⟩) (by rw [tree_callAll, hn]) hgod, hright,
        located, callAll_append, callAll_cons, size]
      congr 2
      omega

/-- `avlt_walk_sorted` with a callback that goes on, in a tree that need not be balanced. -/
theorem avltWalkSorted_of_represents (cmp : K → K → ℤ) {tree : Avlt K V}
    {T : PTree (AvltData K V)} (h : Represents tree T) (hsize : T.size < 2 ^ 31)
    (hgo : GoesOn cb (entries T)) (user : σ) :
    avltWalkSorted cmp cb T.height tree user =
      some ((Walk.mk tree user []).callAll cb (located [] T), (T.size : ℤ)) := by
  obtain ⟨hnodes, hroot⟩ := represents_iff.mp h
  cases T with
  | leaf =>
      rw [avltWalkSorted, hroot]
      rfl
  | node l a d r =>
      have hcells : (Walk.mk tree user [] : Walk K V σ).tree.nodes.cells =
          (PTree.node l a d r).cells none + 0 := by
        rw [add_zero]
        exact hnodes
      rw [avltWalkSorted, hroot]
      refine internal_visits_all _ [] _ _ a none 0 rfl (le_refl _) hsize hcells ?_
      exact firstAnswer_of_goesOn (by rwa [map_fst_located]) user

end Sorted

/-! ## The breadth-first walk -/

section BreadthFirst

variable {cmp : K → K → ℤ} {cb : σ → K × Option V → σ × ℤ} {nodes : Heap (AvltNode K V)}
  {q : Tailqs Unit Addr} {ts : List (Option Addr × PTree (AvltData K V))}
  {t : PTree (AvltData K V)} {p : Option Addr} {rest : Multiset (Addr × AvltNode K V)}

/-- The queue holds the roots of the trees that are still to be walked, and every node can be
queued. -/
structure Pending (nodes : Heap (AvltNode K V)) (q : Tailqs Unit Addr)
    (ts : List (Option Addr × PTree (AvltData K V))) : Prop where
  holds : q.Holds () (roots ts)
  live : ∀ a n, nodes a = some n → (q.entry a).isSome

theorem pending_tailqInit (nodes : Heap (AvltNode K V)) (links : Addr → TailqEntry Unit Addr) :
    Pending nodes (tailqInit nodes links) [] := by
  refine ⟨⟨List.nodup_nil, rfl, rfl, trivial⟩, ?_⟩
  intro a n ha
  show ((nodes a).map fun _ => links a).isSome
  rw [ha]
  rfl

theorem Pending.enqueue (h : Pending nodes q ts)
    (hs : nodes.cells = t.cells p + (pendingCells ts + rest)) :
    ∃ q', AvlTree.enqueue q t.addr = some q' ∧ Pending nodes q' (ts ++ [(p, t)]) := by
  cases t with
  | leaf => exact ⟨q, rfl, by rw [roots_append_leaf]; exact h.holds, h.live⟩
  | node l a d r =>
      have hn := Heap.eq_some_of_cells (hs.trans (by rw [cells, add_assoc]))
      obtain ⟨e, he⟩ := Option.isSome_iff_exists.mp (h.live a _ hn)
      obtain ⟨q', hrun, hholds, hframe⟩ := h.holds.insertTail (notMem_roots hs rfl) he
      refine ⟨q', hrun, ?_, ?_⟩
      · rw [roots_append_node]
        exact hholds
      · intro b m hb
        exact (hframe.live b).mpr (h.live b m hb)

theorem queueChildren_of_pending {s : Walk K V σ} {l r : PTree (AvltData K V)} {a : Addr}
    {d : AvltData K V} {cnt : ℤ} (h : Pending s.tree.nodes q ts)
    (hs : s.tree.nodes.cells =
      (PTree.node l a d r).cells p + (pendingCells ts + rest)) (hcnt : cnt + 1 < 2 ^ 31) :
    ∃ q', queueChildren s q a cnt = some (q', cnt + 1) ∧
      Pending s.tree.nodes q' (ts ++ [(some a, l), (some a, r)]) := by
  have hn := Heap.eq_some_of_cells (hs.trans (by rw [cells, add_assoc]))
  have hl : s.tree.nodes.cells = l.cells (some a) + (pendingCells ts +
      ({(a, ⟨l.addr, r.addr, p, d⟩)} + r.cells (some a) + rest)) := by
    rw [hs, cells]
    abel
  have hr : s.tree.nodes.cells = r.cells (some a) + (pendingCells (ts ++ [(some a, l)]) +
      ({(a, ⟨l.addr, r.addr, p, d⟩)} + rest)) := by
    rw [hs, cells, pendingCells_append, pendingCells_cons, pendingCells_nil]
    abel
  obtain ⟨q₁, hrun₁, h₁⟩ := h.enqueue hl
  obtain ⟨q₂, hrun₂, h₂⟩ := h₁.enqueue hr
  refine ⟨q₂, ?_, ?_⟩
  · rw [queueChildren, addCount_of_lt hcnt, hn]
    simp only [Option.bind_eq_bind, Option.bind_some, hrun₁, hrun₂]
  · rw [List.append_assoc] at h₂
    exact h₂

theorem perm_entries_levelOrder (T : PTree (AvltData K V)) :
    ((levelOrder [T]).map AvltData.entry).Perm (entries T) := by
  have hperm := (levelOrder_perm [T]).map AvltData.entry
  rwa [List.flatMap_singleton] at hperm

/-- One round. -/
theorem walkLoop_node {s : Walk K V σ} {l r : PTree (AvltData K V)} {a : Addr}
    {d : AvltData K V} {cnt : ℤ} {fuel : ℕ}
    (h : Pending s.tree.nodes q ((p, .node l a d r) :: ts))
    (hs : s.tree.nodes.cells =
      (PTree.node l a d r).cells p + (pendingCells ts + rest)) (hcnt : cnt + 1 < 2 ^ 31)
    (hgo : GoesOn cb [d.entry]) :
    ∃ q', walkLoop cmp cb (fuel + 1) s q cnt =
        walkLoop cmp cb fuel (s.call cb (d.entry, [])) q' (cnt + 1) ∧
      Pending s.tree.nodes q' (ts ++ [(some a, l), (some a, r)]) := by
  have hn := Heap.eq_some_of_cells (hs.trans (by rw [cells, add_assoc]))
  have hfirst : q.first () = some a := h.holds.first
  obtain ⟨q₁, hrun₁, hholds₁, hframe₁⟩ := Tailqs.Holds.remove (p := []) h.holds
  have h₁ : Pending s.tree.nodes q₁ ts :=
    ⟨hholds₁, fun b m hb => (hframe₁.live b).mpr (h.live b m hb)⟩
  obtain ⟨q₂, hrun₂, h₂⟩ :=
    queueChildren_of_pending (s := s.call cb (d.entry, [])) h₁ hs hcnt
  obtain ⟨hzero, hone, htwo⟩ := hgo s.user d.entry (List.mem_singleton_self _)
  refine ⟨q₂, ?_, h₂⟩
  rw [walkLoop, hfirst]
  dsimp only
  rw [hrun₁, Option.bind_eq_bind, Option.bind_some, callback_eq hn, Option.bind_eq_bind,
    Option.bind_some]
  dsimp only
  rw [if_neg hzero, if_neg hone, if_neg htwo, hrun₂]
  rfl

/-- The loop visits what is queued in level order. -/
theorem walkLoop_visits_all (cmp : K → K → ℤ) (us : List (PTree (AvltData K V))) :
    ∀ (ts : List (Option Addr × PTree (AvltData K V))) (s : Walk K V σ)
      (q : Tailqs Unit Addr) (cnt : ℤ) (fuel : ℕ) (rest : Multiset (Addr × AvltNode K V)),
      ts.map Prod.snd = us → Pending s.tree.nodes q ts →
      s.tree.nodes.cells = pendingCells ts + rest →
      GoesOn cb ((levelOrder us).map AvltData.entry) → (levelOrder us).length < fuel →
      cnt + (levelOrder us).length < 2 ^ 31 →
      walkLoop cmp cb fuel s q cnt =
        some (s.callAll cb ((levelOrder us).map fun d => (d.entry, [])),
          cnt + (levelOrder us).length) := by
  induction us using levelOrder.induct with
  | case1 =>
      intro ts s q cnt fuel rest hts h hs hgo hfuel hcnt
      obtain rfl := List.map_eq_nil_iff.mp hts
      obtain ⟨fuel, rfl⟩ := Nat.exists_eq_succ_of_ne_zero (n := fuel) (by omega)
      have hfirst : q.first () = none := h.holds.first
      rw [walkLoop, hfirst, levelOrder_nil, List.length_nil, Int.natCast_zero, add_zero]
      rfl
  | case2 us ih =>
      intro ts s q cnt fuel rest hts h hs hgo hfuel hcnt
      obtain ⟨⟨p, t⟩, ts, rfl, rfl, rfl⟩ := List.map_eq_cons_iff.mp hts
      rw [levelOrder_leaf] at hgo hfuel hcnt ⊢
      refine ih ts s q cnt fuel rest rfl ⟨h.holds, h.live⟩ ?_ hgo hfuel hcnt
      rw [hs, pendingCells_cons, cells_leaf, zero_add]
  | case3 l a d r us ih =>
      intro ts s q cnt fuel rest hts h hs hgo hfuel hcnt
      obtain ⟨⟨p, t⟩, ts, rfl, rfl, rfl⟩ := List.map_eq_cons_iff.mp hts
      rw [levelOrder_node] at hgo hfuel hcnt ⊢
      rw [List.map_cons] at hgo
      rw [List.length_cons] at hfuel hcnt ⊢
      obtain ⟨hgod, hgo⟩ := goesOn_cons.mp hgo
      obtain ⟨fuel, rfl⟩ := Nat.exists_eq_succ_of_ne_zero (n := fuel) (by omega)
      rw [pendingCells_cons, add_assoc] at hs
      have hnext : cnt + 1 < 2 ^ 31 := by omega
      obtain ⟨q', hround, h'⟩ := walkLoop_node h hs hnext hgod
      rw [hround, ih (ts ++ [(some a, l), (some a, r)]) (s.call cb (d.entry, [])) q' (cnt + 1)
        fuel ({(a, ⟨l.addr, r.addr, p, d⟩)} + rest) ?_ h' ?_ hgo (by omega) (by omega)]
      · rw [List.map_cons, callAll_cons]
        congr 2
        omega
      · rw [List.map_append]
        rfl
      · rw [tree_call, hs, cells, pendingCells_append, pendingCells_cons, pendingCells_cons,
          pendingCells_nil]
        abel

/-- `avlt_walk` with a callback that goes on, in a tree that need not be balanced. -/
theorem avltWalk_of_represents (cmp : K → K → ℤ) (links : Addr → TailqEntry Unit Addr)
    {tree : Avlt K V} {T : PTree (AvltData K V)} (h : Represents tree T)
    (hsize : T.size < 2 ^ 31) (hgo : GoesOn cb (entries T)) (user : σ) :
    avltWalk cmp cb links (T.size + 1) tree user =
      some ((Walk.mk tree user []).callAll cb
        ((levelOrder [T]).map fun d => (d.entry, [])), (T.size : ℤ)) := by
  obtain ⟨hnodes, hroot⟩ := represents_iff.mp h
  cases T with
  | leaf =>
      rw [avltWalk, hroot, levelOrder_leaf, levelOrder_nil]
      rfl
  | node l a d r =>
      have hcells : tree.nodes.cells = (PTree.node l a d r).cells none + (pendingCells [] + 0) := by
        rw [pendingCells_nil, add_zero, add_zero]
        exact hnodes
      obtain ⟨q, hq, hpending⟩ := (pending_tailqInit tree.nodes links).enqueue hcells
      have hlength := length_levelOrder (PTree.node l a d r)
      rw [← hlength] at hsize ⊢
      have hloop := walkLoop_visits_all cmp [.node l a d r] [(none, .node l a d r)]
        (Walk.mk tree user []) q 0 ((levelOrder [.node l a d r]).length + 1) 0 rfl hpending
        (by rw [hcells, pendingCells_cons, add_assoc])
        (hgo.perm (perm_entries_levelOrder _)) (Nat.lt_succ_self _) (by omega)
      rw [zero_add] at hloop
      rw [avltWalk, hroot]
      exact (congrArg (Option.bind · _) hq).trans hloop

/-! What `avlt_walk` returns is an `int`. -/

theorem addCount_lt {cnt n m : ℤ} (h : addCount cnt n = some m) : m < 2 ^ 31 := by
  rw [addCount] at h
  by_cases hlt : cnt + n < 2 ^ 31
  · rw [if_pos hlt] at h
    cases h
    exact hlt
  · rw [if_neg hlt] at h
    cases h

theorem queueChildren_lt {s : Walk K V σ} {q' : Tailqs Unit Addr} {node : Addr} {cnt m : ℤ}
    (h : queueChildren s q node cnt = some (q', m)) : m < 2 ^ 31 := by
  obtain ⟨m', hadd, h⟩ := Option.bind_eq_some_iff.mp h
  obtain ⟨n, -, h⟩ := Option.bind_eq_some_iff.mp h
  obtain ⟨q₁, -, h⟩ := Option.bind_eq_some_iff.mp h
  obtain ⟨q₂, -, heq⟩ := Option.bind_eq_some_iff.mp h
  cases heq
  exact addCount_lt hadd

theorem walkLoop_lt : ∀ (fuel : ℕ) (s t : Walk K V σ) (q : Tailqs Unit Addr) (cnt r : ℤ),
    cnt < 2 ^ 31 → walkLoop cmp cb fuel s q cnt = some (t, r) → r < 2 ^ 31 := by
  intro fuel
  induction fuel with
  | zero =>
      intro s t q cnt r _ h
      cases h
  | succ fuel ih =>
      intro s t q cnt r hcnt h
      rw [walkLoop] at h
      cases hfirst : q.first () with
      | none =>
          rw [hfirst] at h
          cases h
          exact hcnt
      | some cur =>
          rw [hfirst] at h
          obtain ⟨q₁, -, h⟩ := Option.bind_eq_some_iff.mp h
          obtain ⟨⟨s₁, ret⟩, -, h⟩ := Option.bind_eq_some_iff.mp h
          dsimp only at h
          by_cases hzero : ret = 0
          · rw [if_pos hzero] at h
            cases h
            exact hcnt
          rw [if_neg hzero] at h
          by_cases hone : ret = -1
          · rw [if_pos hone] at h
            obtain ⟨s₂, -, h⟩ := Option.bind_eq_some_iff.mp h
            obtain ⟨⟨q₂, cnt₂⟩, hqueue, h⟩ := Option.bind_eq_some_iff.mp h
            exact ih s₂ t q₂ cnt₂ r (queueChildren_lt hqueue) h
          rw [if_neg hone] at h
          by_cases htwo : ret = -2
          · rw [if_pos htwo] at h
            obtain ⟨s₂, -, heq⟩ := Option.bind_eq_some_iff.mp h
            cases heq
            exact hcnt
          · rw [if_neg htwo] at h
            obtain ⟨⟨q₂, cnt₂⟩, hqueue, h⟩ := Option.bind_eq_some_iff.mp h
            exact ih s₁ t q₂ cnt₂ r (queueChildren_lt hqueue) h

theorem avltWalk_lt {links : Addr → TailqEntry Unit Addr} {tree : Avlt K V} {user : σ}
    {t : Walk K V σ} {r : ℤ} {fuel : ℕ}
    (h : avltWalk cmp cb links fuel tree user = some (t, r)) : r < 2 ^ 31 := by
  rw [avltWalk] at h
  cases hroot : tree.root with
  | none =>
      rw [hroot] at h
      cases h
      decide
  | some root =>
      rw [hroot] at h
      obtain ⟨q, -, h⟩ := Option.bind_eq_some_iff.mp h
      exact walkLoop_lt fuel _ t q 0 r (by decide) h

end BreadthFirst

end AvlTree
end LibHL
