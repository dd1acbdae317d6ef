import LibHL.AvlTree.Order
import LibHL.AvlTree.WalkVisits

/-!
# The first stop of a walk

Up to the first answer that does not let it go on, the recursive walk is the in-order of the
tree.  So where it stops, and who is under way then, can be told from the tree and the
callback, unless the first such answer is to remove a node.
-/

namespace LibHL
namespace AvlTree

open PTree

variable {K V σ : Type}

/-- If an answer interrupts the calls for the entries in order, it is for the root, or for a node
whose parent is reached from the root through right children only. -/
def StopFits (cb : σ → K × Option V → σ × ℤ) (user : σ) (T : PTree (AvltData K V)) : Prop :=
  ∀ p ∈ firstAnswer cb user (located [] T), Side.left ∉ p.1.2.tail

instance (cb : σ → K × Option V → σ × ℤ) (user : σ) (T : PTree (AvltData K V)) :
    Decidable (StopFits cb user T) :=
  inferInstanceAs (Decidable (∀ p ∈ firstAnswer _ _ _, _))

/-- The first answer that interrupts the calls for the entries in order is to remove a node and
to go on. -/
def RemovesFirst (cb : σ → K × Option V → σ × ℤ) (user : σ) (T : PTree (AvltData K V)) : Prop :=
  ∃ p ∈ firstAnswer cb user (located [] T), p.2 = -1

instance (cb : σ → K × Option V → σ × ℤ) (user : σ) (T : PTree (AvltData K V)) :
    Decidable (RemovesFirst cb user T) :=
  inferInstanceAs (Decidable (∃ p ∈ firstAnswer _ _ _, _))

section FirstStop

variable {cmp : K → K → ℤ} {cb : σ → K × Option V → σ × ℤ} {s s' : Walk K V σ} {node : Addr}
  {n : AvltNode K V} {turns : List Side} {cnt r : ℤ} {calls : List (Call K V)}
  {cs : List ((K × Option V) × List Side)} {p : ((K × Option V) × List Side) × ℤ}
  {walk : Walk K V σ → Addr → Option (Walk K V σ × ℤ)}

/-- The record of a call. -/
def record (p : ((K × Option V) × List Side) × ℤ) : Call K V := ⟨p.1.1, p.2, p.1.2⟩

theorem interrupts_of_firstAnswer {u : σ} (h : firstAnswer cb u cs = some p) :
    Interrupts p.2 := by
  induction cs generalizing u with
  | nil => cases h
  | cons c cs ih =>
      rw [firstAnswer] at h
      split at h
      · next hint =>
          cases h
          exact hint
      · exact ih h

theorem neverStops_callAll (h : firstAnswer cb s.user cs = none) :
    ∃ as, (s.callAll cb cs).calls = s.calls ++ as ∧ NeverStops as := by
  induction cs generalizing s with
  | nil => exact ⟨[], (List.append_nil _).symm, neverStops_nil⟩
  | cons c cs ih =>
      rw [firstAnswer_cons] at h
      obtain ⟨hint, h⟩ := ite_eq_none h
      obtain ⟨as, has, hnever⟩ := ih h
      refine ⟨⟨c.1, (cb s.user c.1).2, c.2⟩ :: as, ?_, neverStops_cons.mpr ⟨?_, hnever⟩⟩
      · rw [callAll_cons, has, Walk.call, List.append_assoc]
        rfl
      · rintro (hzero | htwo)
        · exact hint (Or.inl hzero)
        · exact hint (Or.inr (Or.inr htwo))

/-- What a walk has done when it returns: all calls, or those up to the first answer that
interrupts them and perhaps more. -/
def Begun (cb : σ → K × Option V → σ × ℤ) (s : Walk K V σ)
    (cs : List ((K × Option V) × List Side)) (s' : Walk K V σ) : Prop :=
  match firstAnswer cb s.user cs with
  | none => s' = s.callAll cb cs
  | some p => ∃ as bs, s'.calls = s.calls ++ (as ++ record p :: bs) ∧ NeverStops as

theorem begun_iff_of_none (h : firstAnswer cb s.user cs = none) :
    Begun cb s cs s' ↔ s' = s.callAll cb cs := by
  rw [Begun, h]

theorem begun_iff_of_some (h : firstAnswer cb s.user cs = some p) :
    Begun cb s cs s' ↔ ∃ as bs, s'.calls = s.calls ++ (as ++ record p :: bs) ∧ NeverStops as := by
  rw [Begun, h]

theorem Begun.extend {s'' : Walk K V σ} {ds : List ((K × Option V) × List Side)}
    (h : Begun cb s cs s') (hp : firstAnswer cb s.user cs = some p)
    (hmore : ∃ bs, s''.calls = s'.calls ++ bs) : Begun cb s (cs ++ ds) s'' := by
  obtain ⟨as, bs, hcalls, hnever⟩ := (begun_iff_of_some hp).mp h
  obtain ⟨ds', hds⟩ := hmore
  have hfirst : firstAnswer cb s.user (cs ++ ds) = some p := by
    rw [firstAnswer_append, hp, Option.some_or]
  refine (begun_iff_of_some hfirst).mpr ⟨as, bs ++ ds', ?_, hnever⟩
  rw [hds, hcalls]
  simp

theorem Begun.after {ds : List ((K × Option V) × List Side)}
    (hnone : firstAnswer cb s.user cs = none) (h : Begun cb (s.callAll cb cs) ds s') :
    Begun cb s (cs ++ ds) s' := by
  have hfirst : firstAnswer cb s.user (cs ++ ds) =
      firstAnswer cb (s.callAll cb cs).user ds := by
    rw [firstAnswer_append, hnone, Option.none_or]
  cases hp : firstAnswer cb (s.callAll cb cs).user ds with
  | none =>
      rw [begun_iff_of_none hp] at h
      rw [begun_iff_of_none (hfirst.trans hp), h, callAll_append]
  | some p =>
      obtain ⟨bs, ds', hcalls, hnever⟩ := (begun_iff_of_some hp).mp h
      obtain ⟨as, has, hbefore⟩ := neverStops_callAll hnone
      refine (begun_iff_of_some (hfirst.trans hp)).mpr ⟨as ++ bs, ds', ?_, ?_⟩
      · rw [hcalls, has]
        simp
      · exact neverStops_append.mpr ⟨hbefore, hnever⟩

theorem Begun.cons {c : (K × Option V) × List Side} (hc : ¬ Interrupts (cb s.user c.1).2)
    (h : Begun cb (s.call cb c) cs s') : Begun cb s (c :: cs) s' := by
  have hnone : firstAnswer cb s.user [c] = none := by
    rw [firstAnswer, if_neg hc, firstAnswer]
  have hbegun : Begun cb s ([c] ++ cs) s' := Begun.after hnone h
  exact hbegun

theorem Outcome.pos_of_never {calls : List (Call K V)} (h : Outcome turns calls r)
    (hnever : NeverStops calls) : 1 ≤ r := by
  cases h with
  | goesOn _ hpos => exact hpos
  | stopped _ hstops =>
      exact absurd hstops (neverStops_cons.mp (neverStops_append.mp hnever).2).1
  | overrun _ hstops =>
      exact absurd hstops (neverStops_cons.mp (neverStops_append.mp hnever).2).1

/-- What a visit and the walk of the right child have done. -/
theorem visit_begins {ds : List ((K × Option V) × List Side)}
    (hn : s.tree.nodes node = some n)
    (hwalk : ∀ s a s' r, walk s a = some (s', r) →
      ∃ calls, s'.calls = s.calls ++ calls ∧ Outcome (.right :: turns) calls r)
    (hcnt : 1 ≤ cnt) (hleaf : n.right = none → ds = [])
    (hright : ∀ a s' r, n.right = some a →
      walk (s.call cb (n.data.entry, turns)) a = some (s', r) →
      Begun cb (s.call cb (n.data.entry, turns)) ds s')
    (h : visit cmp cb walk turns node s cnt = some (s', r)) :
    Begun cb s ((n.data.entry, turns) :: ds) s' := by
  by_cases hint : Interrupts (cb s.user n.data.entry).2
  · obtain ⟨m, -, bs, hm, rfl, hbs, -⟩ := visit_outcome hwalk hcnt h
    obtain rfl := Option.some.inj (hn.symm.trans hm)
    have hfirst : firstAnswer cb s.user ((n.data.entry, turns) :: ds) =
        some ((n.data.entry, turns), (cb s.user n.data.entry).2) := if_pos hint
    refine (begun_iff_of_some hfirst).mpr ⟨[], bs, hbs, neverStops_nil⟩
  · rw [visit_of_goesOn hn hint, walkRight, tree_call, hn, Option.bind_eq_bind,
      Option.bind_some] at h
    refine Begun.cons hint ?_
    rcases walkChild_cases h with ⟨hnone, heq⟩ | ⟨a, s₁, r₁, hsome, hrun, hends⟩
    · cases heq
      rw [hleaf hnone]
      exact (begun_iff_of_none rfl).mpr rfl
    · have hbegun := hright a s₁ r₁ hsome hrun
      rcases hends with ⟨-, rfl, -⟩ | ⟨-, heq⟩
      · exact hbegun
      · cases heq
        exact hbegun

theorem internal_begins : ∀ (t : PTree (AvltData K V)) (turns : List Side) (s s' : Walk K V σ)
    (fuel : ℕ) (a : Addr) (p : Option Addr) (rest : Multiset (Addr × AvltNode K V)) (r : ℤ),
    t.addr = some a → s.tree.nodes.cells = t.cells p + rest →
    avtWalkSortedInternal cmp cb fuel turns s a = some (s', r) →
    Begun cb s (located turns t) s' := by
  intro t
  induction t with
  | leaf =>
      intro turns s s' fuel a p rest r ha
      cases ha
  | node l b d r ihl ihr =>
      intro turns s s' fuel a p rest m ha hs h
      cases ha
      cases fuel with
      | zero => cases h
      | succ fuel =>
        obtain ⟨hn, ⟨restl, hl⟩, restr, hr⟩ := cells_children hs
        -- the visit, after the calls for the left subtree
        have hvisit : ∀ (s₁ : Walk K V σ) (cnt : ℤ), s₁.tree = s.tree → 1 ≤ cnt →
            visit cmp cb (avtWalkSortedInternal cmp cb fuel (.right :: turns)) turns b s₁ cnt =
              some (s', m) →
            Begun cb s₁ ((d.entry, turns) :: located (.right :: turns) r) s' := by
          intro s₁ cnt hs₁ hcnt hvisit
          refine visit_begins (n := ⟨l.addr, r.addr, p, d⟩) (hs₁ ▸ hn)
            (internal_outcome fuel _) hcnt ?_ ?_ hvisit
          · intro hnone
            cases r with
            | leaf => rfl
            | node => cases hnone
          · intro a s₂ r₂ ha hrun
            refine ihr _ _ _ _ _ (some b) restr _ ha ?_ hrun
            rw [tree_call, hs₁]
            exact hr
        rw [avtWalkSortedInternal, hn, Option.bind_eq_bind, Option.bind_some] at h
        rcases walkChild_cases h with ⟨hnone, h⟩ | ⟨a, s₁, r₁, hsome, hrun, hends⟩
        · cases l with
          | leaf => exact hvisit s 1 rfl (le_refl 1) h
          | node => cases hnone
        · have hbegun := ihl _ _ _ _ _ _ _ _ hsome hl hrun
          obtain ⟨calls, hcalls, hout⟩ := internal_outcome fuel _ s a s₁ r₁ hrun
          cases hfirst : firstAnswer cb s.user (located (.left :: turns) l) with
          | none =>
              obtain rfl := (begun_iff_of_none hfirst).mp hbegun
              obtain ⟨as, has, hnever⟩ := neverStops_callAll hfirst
              obtain rfl := List.append_cancel_left (hcalls.symm.trans has)
              have hpos := hout.pos_of_never hnever
              rcases hends with ⟨hstop, -⟩ | ⟨-, h⟩
              · omega
              · exact Begun.after hfirst (hvisit _ _ tree_callAll (by omega) h)
          | some p =>
              refine hbegun.extend hfirst ?_
              rcases hends with ⟨-, rfl, -⟩ | ⟨hne, h⟩
              · exact ⟨[], (List.append_nil _).symm⟩
              · have hpos := hout.result.resolve_left hne
                obtain ⟨-, c, bs, -, -, hbs, -⟩ :=
                  visit_outcome (internal_outcome fuel (.right :: turns)) (by omega) h
                exact ⟨c :: bs, hbs⟩

theorem mem_of_firstAnswer {u : σ} (h : firstAnswer cb u cs = some p) : p.1 ∈ cs := by
  induction cs generalizing u with
  | nil => cases h
  | cons c cs ih =>
      rw [firstAnswer] at h
      split at h
      · cases h
        exact List.mem_cons_self
      · exact List.mem_cons_of_mem c (ih h)

theorem addr_of_firstAnswer {t : PTree (AvltData K V)} {u : σ}
    (h : firstAnswer cb u (located turns t) = some p) : ∃ a, t.addr = some a := by
  cases t with
  | leaf => cases h
  | node l a d r => exact ⟨a, rfl⟩

theorem turns_of_located {t : PTree (AvltData K V)} {c : (K × Option V) × List Side} :
    ∀ {turns}, c ∈ located turns t → ∃ q, c.2 = q ++ turns := by
  induction t with
  | leaf =>
      intro turns h
      cases h
  | node l a d r ihl ihr =>
      intro turns h
      rcases List.mem_append.mp h with h | h
      · obtain ⟨q, hq⟩ := ihl h
        exact ⟨q ++ [.left], by rw [hq, List.append_assoc]; rfl⟩
      rcases List.mem_cons.mp h with rfl | h
      · exact ⟨[], rfl⟩
      · obtain ⟨q, hq⟩ := ihr h
        exact ⟨q ++ [.right], by rw [hq, List.append_assoc]; rfl⟩

/-- How an invocation that is stopped below ends: at its own node with `-1`, else with a count. -/
def StopResult (t : PTree (AvltData K V)) (q : List Side) (r : ℤ) : Prop :=
  q = [] ∧ r = -1 ∨ q ≠ [] ∧ 1 ≤ r ∧ r ≤ t.size

/-- A child that is stopped, and its parent. -/
theorem walkChild_of_stop (cnt : ℤ) (next : Walk K V σ → ℤ → Option (Walk K V σ × ℤ))
    {t : PTree (AvltData K V)} {q : List Side} {a : Addr} {m : ℤ}
    (ha : t.addr = some a) (hwalk : walk s a = some (s', m)) (hm : StopResult t q m)
    (hcnt : 1 ≤ cnt) (hfits : cnt + t.size < 2 ^ 31)
    (hnext : q ≠ [] → next s' (cnt + m) = some (s', cnt + m)) :
    ∃ r, walkChild walk s t.addr cnt next = some (s', r) ∧ 1 ≤ r ∧ r ≤ cnt + t.size := by
  have hpos : 1 ≤ (t.size : ℤ) := by
    cases t with
    | leaf => cases ha
    | node l b d r =>
        rw [size]
        omega
  rw [ha, walkChild, hwalk, Option.bind_eq_bind, Option.bind_some]
  dsimp only
  obtain ⟨-, rfl⟩ | ⟨hq, hone, hle⟩ := hm
  · refine ⟨cnt + 1, ?_, by omega, by omega⟩
    rw [if_pos rfl, addCount_of_lt (by omega)]
    rfl
  · refine ⟨cnt + m, ?_, by omega, by omega⟩
    rw [if_neg (by omega), addCount_of_lt (by omega), Option.bind_eq_bind, Option.bind_some]
    exact hnext hq

/-- The visit of a node that is stopped at itself. -/
theorem visit_of_stop (turns : List Side) (cnt : ℤ)
    (walk : Walk K V σ → Addr → Option (Walk K V σ × ℤ)) (hn : s.tree.nodes node = some n)
    (hremove : ∀ key, ∃ res, avltRemove cmp s.tree key true = some res)
    (hint : Interrupts (cb s.user n.data.entry).2) (hone : (cb s.user n.data.entry).2 ≠ -1) :
    ∃ s', visit cmp cb walk turns node s cnt = some (s', -1) := by
  rw [visit, callback_eq hn, Option.bind_eq_bind, Option.bind_some]
  dsimp only
  by_cases hzero : (cb s.user n.data.entry).2 = 0
  · rw [if_pos hzero]
    exact ⟨_, rfl⟩
  · have htwo : (cb s.user n.data.entry).2 = -2 := (hint.resolve_left hzero).resolve_left hone
    obtain ⟨res, hres⟩ := hremove n.data.key
    rw [if_neg hzero, if_neg hone, if_pos htwo, removeVisited, tree_call, hn]
    simp only [Option.bind_eq_bind, Option.bind_some, hres]
    exact ⟨_, rfl⟩

theorem eq_concat_of_turns {side : Side} {q q' turns' : List Side} (h : turns' = q ++ turns)
    (h' : turns' = q' ++ side :: turns) : q = q' ++ [side] := by
  have happend : q ++ turns = (q' ++ [side]) ++ turns := by
    rw [← h, h', List.append_assoc]
    rfl
  exact List.append_cancel_right happend

theorem eq_nil_of_top {q : List Side} (h : Side.left ∉ (q ++ [Side.left]).tail) : q = [] := by
  by_contra hq
  rw [List.tail_append_of_ne_nil hq] at h
  exact h (List.mem_append_right _ (List.mem_singleton_self _))

theorem top_of_concat {q : List Side} {side : Side} (h : Side.left ∉ (q ++ [side]).tail) :
    Side.left ∉ q.tail := by
  intro hmem
  rw [List.tail_append_of_ne_nil (ne_nil_of_mem_tail hmem)] at h
  exact h (List.mem_append_left _ hmem)

/-- A subtree in which the walk is stopped. -/
theorem internal_stops : ∀ (t : PTree (AvltData K V)) (turns q : List Side) (s : Walk K V σ)
    (fuel : ℕ) (a : Addr) (p : Option Addr) (rest : Multiset (Addr × AvltNode K V))
    (c : ((K × Option V) × List Side) × ℤ), t.addr = some a → t.height ≤ fuel →
    t.size < 2 ^ 31 → s.tree.nodes.cells = t.cells p + rest →
    (∀ key, ∃ res, avltRemove cmp s.tree key true = some res) →
    firstAnswer cb s.user (located turns t) = some c → c.2 ≠ -1 → c.1.2 = q ++ turns →
    Side.left ∉ q.tail →
    ∃ s' r, avtWalkSortedInternal cmp cb fuel turns s a = some (s', r) ∧ StopResult t q r := by
  intro t
  induction t with
  | leaf =>
      intro turns q s fuel a p rest c ha
      cases ha
  | node l b d r ihl ihr =>
      intro turns q s fuel a p rest c ha hfuel hsize hs hremove hfirst hone hturns htop
      cases ha
      rw [height] at hfuel
      rw [size] at hsize
      obtain ⟨fuel, rfl⟩ := Nat.exists_eq_succ_of_ne_zero (n := fuel) (by omega)
      obtain ⟨hn, ⟨restl, hl⟩, restr, hr⟩ := cells_children hs
      rw [avtWalkSortedInternal, hn, Option.bind_eq_bind, Option.bind_some]
      rw [located, firstAnswer_append] at hfirst
      cases hleft : firstAnswer cb s.user (located (.left :: turns) l) with
      | some c' =>
          rw [hleft, Option.some_or] at hfirst
          cases hfirst
          obtain ⟨q', hq'⟩ := turns_of_located (mem_of_firstAnswer hleft)
          obtain rfl := eq_concat_of_turns hturns hq'
          obtain rfl := eq_nil_of_top htop
          obtain ⟨a, ha⟩ := addr_of_firstAnswer hleft
          obtain ⟨s', m, hrun, hm⟩ := ihl _ [] s fuel a _ _ c ha (by omega) (by omega) hl
            hremove hleft hone hq' List.not_mem_nil
          obtain ⟨r', hchild, hpos, hle⟩ := walkChild_of_stop 1
            (visit cmp cb (avtWalkSortedInternal cmp cb fuel (.right :: turns)) turns b)
            ha hrun hm (le_refl 1) (by omega) (fun hq => absurd rfl hq)
          exact ⟨s', r', hchild, Or.inr ⟨List.cons_ne_nil _ _, hpos, by rw [size]; omega⟩⟩
      | none =>
          have hcall : walkChild (avtWalkSortedInternal cmp cb fuel (.left :: turns)) s l.addr 1
                (visit cmp cb (avtWalkSortedInternal cmp cb fuel (.right :: turns)) turns b) =
              visit cmp cb (avtWalkSortedInternal cmp cb fuel (.right :: turns)) turns b
                (s.callAll cb (located (.left :: turns) l)) (1 + l.size) := by
            refine walkChild_of_all ?_ (by omega)
            intro a ha
            exact internal_visits_all _ _ _ _ _ _ _ ha (by omega) (by omega) hl hleft
          have hn' : (s.callAll cb (located (.left :: turns) l)).tree.nodes b =
              some ⟨l.addr, r.addr, p, d⟩ := by rw [tree_callAll, hn]
          rw [hleft, Option.none_or, firstAnswer_cons] at hfirst
          rw [hcall]
          split at hfirst
          · next hint =>
              cases hfirst
              obtain ⟨s', hvisit⟩ := visit_of_stop turns (1 + l.size)
                (avtWalkSortedInternal cmp cb fuel (.right :: turns)) hn'
                (by rwa [tree_callAll]) hint hone
              refine ⟨s', -1, hvisit, Or.inl ⟨?_, rfl⟩⟩
              exact List.append_cancel_right (hturns.symm.trans (List.nil_append _).symm)
          · next hint =>
              obtain ⟨q', hq'⟩ := turns_of_located (mem_of_firstAnswer hfirst)
              obtain rfl := eq_concat_of_turns hturns hq'
              rw [visit_of_goesOn hn' hint, walkRight, tree_call, hn', Option.bind_eq_bind,
                Option.bind_some]
              obtain ⟨a, ha⟩ := addr_of_firstAnswer hfirst
              obtain ⟨s', m, hrun, hm⟩ := ihr _ q'
                ((s.callAll cb (located (.left :: turns) l)).call cb (d.entry, turns)) fuel
                a (some b) restr c ha (by omega) (by omega)
                (by rw [tree_call, tree_callAll]; exact hr)
                (by rwa [tree_call, tree_callAll]) hfirst hone hq' (top_of_concat htop)
              obtain ⟨r', hchild, hpos, hle⟩ := walkChild_of_stop (1 + l.size)
                (fun s cnt => some (s, cnt)) ha hrun hm (by omega) (by omega) (fun _ => rfl)
              refine ⟨s', r', hchild, Or.inr ⟨?_, hpos, by rw [size]; omega⟩⟩
              exact List.append_ne_nil_of_right_ne_nil q' (List.cons_ne_nil _ _)

theorem begun_of_walkSorted {tree : Avlt K V} {T : PTree (AvltData K V)} {user : σ} {fuel : ℕ}
    (h : AvlShape tree T) (hrun : avltWalkSorted cmp cb fuel tree user = some (s', r)) :
    Begun cb ⟨tree, user, []⟩ (located [] T) s' := by
  rw [avltWalkSorted, h.root] at hrun
  cases T with
  | leaf =>
      cases hrun
      exact (begun_iff_of_none rfl).mpr rfl
  | node l a d r =>
      exact internal_begins _ [] _ _ fuel a none 0 _ rfl (h.cells.trans (add_zero _).symm) hrun

/-- The first stop of the record is the one that the tree and the callback tell. -/
theorem Begun.stopsAtTop_iff {tree : Avlt K V} {T : PTree (AvltData K V)} {user : σ}
    (h : Begun cb ⟨tree, user, []⟩ (located [] T) s') (hfirst : ¬ RemovesFirst cb user T) :
    StopsAtTop s'.calls ↔ StopFits cb user T := by
  cases hp : firstAnswer cb user (located [] T) with
  | none =>
      obtain rfl := (begun_iff_of_none (s := ⟨tree, user, []⟩) hp).mp h
      obtain ⟨as, has, hnever⟩ := neverStops_callAll (s := ⟨tree, user, []⟩) hp
      refine iff_of_true ?_ ?_
      · intro bs c cs heq _ hc
        rw [has, List.nil_append] at heq
        rw [heq] at hnever
        exact absurd hc (neverStops_cons.mp (neverStops_append.mp hnever).2).1
      · rw [StopFits, hp]
        rintro p ⟨⟩
  | some p =>
      have hstops : (record p).Stops := by
        rcases interrupts_of_firstAnswer hp with hzero | hone | htwo
        · exact Or.inl hzero
        · exact absurd ⟨p, hp, hone⟩ hfirst
        · exact Or.inr htwo
      obtain ⟨as, bs, hcalls, hnever⟩ := (begun_iff_of_some (s := ⟨tree, user, []⟩) hp).mp h
      rw [List.nil_append] at hcalls
      rw [hcalls]
      constructor
      · intro htop p' hp'
        obtain rfl := Option.some.inj (hp.symm.trans hp')
        exact htop as _ bs rfl hnever hstops
      · intro hfits as' c bs' heq hnever' hc
        obtain ⟨-, rfl, -⟩ := append_inj_of_stops heq hnever hstops hnever' hc
        exact hfits p hp

theorem walkSorted_returns (cmp : K → K → ℤ) {tree : Avlt K V} {T : PTree (AvltData K V)}
    {user : σ} (h : AvlShape tree T) (hfirst : ¬ RemovesFirst cb user T)
    (hfits : StopFits cb user T) (hsize : T.size < 2 ^ 31) :
    ∃ s r, avltWalkSorted cmp cb T.height tree user = some (s, r) := by
  rw [avltWalkSorted, h.root]
  cases T with
  | leaf => exact ⟨_, _, rfl⟩
  | node l a d r =>
      have hcells := h.cells.trans (add_zero _).symm
      cases hp : firstAnswer cb user (located [] (.node l a d r)) with
      | none =>
          exact ⟨_, _, internal_visits_all _ [] ⟨tree, user, []⟩ _ a none 0 rfl (le_refl _)
            hsize hcells hp⟩
      | some p =>
          have hremove : ∀ key, ∃ res, avltRemove cmp tree key true = some res := by
            intro key
            obtain ⟨tree', m, -, hrun, -⟩ := avltRemove_keeps_shape cmp h key true
            exact ⟨_, hrun⟩
          obtain ⟨s, m, hrun, -⟩ := internal_stops _ [] p.1.2 ⟨tree, user, []⟩ _ a none 0 p rfl
            (le_refl _) hsize hcells hremove hp (fun hone => hfirst ⟨p, hp, hone⟩)
            (List.append_nil _).symm (hfits p hp)
          exact ⟨s, m, hrun⟩

end FirstStop

/-- Adding four keys, so that the smallest one is a grandchild of the root. -/
def fourKeys : List (AvltOp ℕ ℕ) := [4, 2, 5, 1].map fun k => .add k none

theorem fourKeys_runs : (runSteps (stepOp natComparator.cmp) (avltCreate false) fourKeys).isSome := by
  decide

def fourTree : Avlt ℕ ℕ :=
  ((runSteps (stepOp natComparator.cmp) (avltCreate false) fourKeys).get fourKeys_runs).1

/-- A callback that asks to stop at one key. -/
def stopAt (key : ℕ) (_ : Unit) (e : ℕ × Option ℕ) : Unit × ℤ := ((), if e.1 = key then 0 else 1)

theorem fourTree_run : runSteps (stepOp natComparator.cmp) (avltCreate false) fourKeys =
    some (fourTree, ((runSteps (stepOp natComparator.cmp) (avltCreate false) fourKeys).get
      fourKeys_runs).2) :=
  (Option.some_get fourKeys_runs).symm

/-- The nodes of that tree. -/
def fourNodes : PTree (AvltData ℕ ℕ) :=
  (treeOf fourTree).getD .leaf

theorem fourTree_shape : AvlShape fourTree fourNodes := by
  obtain ⟨tree, os, hrun, ⟨T, h⟩, -⟩ := run_stays_balanced natComparator.cmp false fourKeys
  obtain rfl : fourTree = tree :=
    congrArg Prod.fst (Option.some.inj (fourTree_run.symm.trans hrun))
  rw [fourNodes, h.treeOf_eq]
  exact h

end AvlTree
end LibHL
