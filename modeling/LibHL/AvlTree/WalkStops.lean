import LibHL.AvlTree.Runs
import LibHL.AvlTree.Walk

/-!
# Walks that are stopped

The breadth-first walk returns from its loop.  The recursive walk passes the request to stop
on to the caller only: the caller returns a count, and whoever walks its left child goes on.
-/

namespace LibHL
namespace AvlTree

variable {K V σ : Type}

/-! ## Records of calls -/

/-- The call asked the walk to stop. -/
def Call.Stops (c : Call K V) : Prop := c.answer = 0 ∨ c.answer = -2

/-- After a call that asked to stop there is no other one. -/
def StopsAtOnce (calls : List (Call K V)) : Prop :=
  ∀ as c bs, calls = as ++ c :: bs → c.Stops → bs = []

/-- No call asked to stop. -/
def NeverStops (calls : List (Call K V)) : Prop := ∀ c ∈ calls, ¬ c.Stops

/-- At the first call that asks to stop, none of the invocations under way walks a left child,
apart from the one that made the call and its caller. -/
def StopsAtTop (calls : List (Call K V)) : Prop :=
  ∀ as c bs, calls = as ++ c :: bs → NeverStops as → c.Stops → Side.left ∉ c.turns.tail

section Records

variable {as bs : List (Call K V)} {c : Call K V}

theorem neverStops_nil : NeverStops ([] : List (Call K V)) := fun _ h => by cases h

theorem neverStops_append : NeverStops (as ++ bs) ↔ NeverStops as ∧ NeverStops bs :=
  List.forall_mem_append

theorem neverStops_cons : NeverStops (c :: bs) ↔ ¬ c.Stops ∧ NeverStops bs :=
  List.forall_mem_cons

/-- The first call that asks to stop is the only place to look at. -/
theorem append_inj_of_stops {as' bs' : List (Call K V)} {c' : Call K V}
    (heq : as ++ c :: bs = as' ++ c' :: bs') (has : NeverStops as) (hc : c.Stops)
    (has' : NeverStops as') (hc' : c'.Stops) : as = as' ∧ c = c' ∧ bs = bs' := by
  induction as generalizing as' with
  | nil =>
      cases as' with
      | nil =>
          cases heq
          exact ⟨rfl, rfl, rfl⟩
      | cons a as' =>
          cases heq
          exact absurd hc (neverStops_cons.mp has').1
  | cons a as ih =>
      cases as' with
      | nil =>
          cases heq
          exact absurd hc' (neverStops_cons.mp has).1
      | cons a' as' =>
          rw [List.cons_append, List.cons_append, List.cons.injEq] at heq
          obtain ⟨rfl, heq⟩ := heq
          obtain ⟨rfl, rfl, rfl⟩ :=
            ih heq (neverStops_cons.mp has).2 (neverStops_cons.mp has').2
          exact ⟨rfl, rfl, rfl⟩

theorem stopsAtOnce_of_never (h : NeverStops as) : StopsAtOnce as := by
  intro bs c cs heq hc
  rw [heq] at h
  exact absurd hc (neverStops_cons.mp (neverStops_append.mp h).2).1

theorem stopsAtOnce_append_singleton (h : NeverStops as) : StopsAtOnce (as ++ [c]) := by
  intro bs d ds heq hd
  rcases List.eq_nil_or_concat ds with rfl | ⟨ds, e, rfl⟩
  · rfl
  · rw [List.concat_eq_append, ← List.cons_append, ← List.append_assoc] at heq
    have hinit := List.append_inj_left' heq rfl
    rw [hinit] at h
    exact absurd hd (neverStops_cons.mp (neverStops_append.mp h).2).1

end Records

/-! ## The breadth-first walk -/

variable {cmp : K → K → ℤ} {cb : σ → K × Option V → σ × ℤ} {s t : Walk K V σ} {node : Addr}
  {turns : List Side} {ret cnt r : ℤ} {fuel : ℕ}

theorem callback_calls (h : callback cb s turns node = some (t, ret)) :
    ∃ n, s.tree.nodes node = some n ∧ ret = (cb s.user n.data.entry).2 ∧
      t.calls = s.calls ++ [⟨n.data.entry, ret, turns⟩] := by
  obtain ⟨n, hn, heq⟩ := Option.bind_eq_some_iff.mp h
  cases heq
  exact ⟨n, hn, rfl, rfl⟩

theorem removeVisited_calls (h : removeVisited cmp s node = some t) : t.calls = s.calls := by
  obtain ⟨n, -, h⟩ := Option.bind_eq_some_iff.mp h
  obtain ⟨res, -, heq⟩ := Option.bind_eq_some_iff.mp h
  cases heq
  rfl

theorem walkLoop_stops : ∀ (fuel : ℕ) (s : Walk K V σ) (q : Tailqs Unit Addr) (cnt : ℤ),
    walkLoop cmp cb fuel s q cnt = some (t, r) → NeverStops s.calls → StopsAtOnce t.calls := by
  intro fuel
  induction fuel with
  | zero =>
      intro s q cnt h
      cases h
  | succ fuel ih =>
      intro s q cnt h hnever
      rw [walkLoop] at h
      cases hfirst : q.first () with
      | none =>
          rw [hfirst] at h
          cases h
          exact stopsAtOnce_of_never hnever
      | some cur =>
          rw [hfirst] at h
          obtain ⟨q₁, -, h⟩ := Option.bind_eq_some_iff.mp h
          obtain ⟨⟨s₁, ret⟩, hcb, h⟩ := Option.bind_eq_some_iff.mp h
          obtain ⟨n, -, -, he⟩ := callback_calls hcb
          have hlast : StopsAtOnce s₁.calls := he ▸ stopsAtOnce_append_singleton hnever
          have hmore : ret ≠ 0 → ret ≠ -2 → NeverStops s₁.calls := by
            intro hzero htwo
            rw [he]
            refine neverStops_append.mpr ⟨hnever, neverStops_cons.mpr ⟨?_, neverStops_nil⟩⟩
            exact not_or.mpr ⟨hzero, htwo⟩
          dsimp only at h
          by_cases hzero : ret = 0
          · rw [if_pos hzero] at h
            cases h
            exact hlast
          rw [if_neg hzero] at h
          by_cases hone : ret = -1
          · rw [if_pos hone] at h
            obtain ⟨s₂, hremove, h⟩ := Option.bind_eq_some_iff.mp h
            obtain ⟨⟨q₂, cnt₂⟩, -, h⟩ := Option.bind_eq_some_iff.mp h
            refine ih s₂ q₂ cnt₂ h ?_
            rw [removeVisited_calls hremove]
            exact hmore hzero (by omega)
          rw [if_neg hone] at h
          by_cases htwo : ret = -2
          · rw [if_pos htwo] at h
            obtain ⟨s₂, hremove, heq⟩ := Option.bind_eq_some_iff.mp h
            cases heq
            rw [removeVisited_calls hremove]
            exact hlast
          · rw [if_neg htwo] at h
            obtain ⟨⟨q₂, cnt₂⟩, -, h⟩ := Option.bind_eq_some_iff.mp h
            exact ih s₁ q₂ cnt₂ h (hmore hzero htwo)

theorem avltWalk_stops {links : Addr → TailqEntry Unit Addr} {tree : Avlt K V} {user : σ}
    (h : avltWalk cmp cb links fuel tree user = some (t, r)) : StopsAtOnce t.calls := by
  rw [avltWalk] at h
  cases hroot : tree.root with
  | none =>
      rw [hroot] at h
      cases h
      exact stopsAtOnce_of_never neverStops_nil
  | some root =>
      rw [hroot] at h
      obtain ⟨q, -, h⟩ := Option.bind_eq_some_iff.mp h
      exact walkLoop_stops fuel _ q 0 h neverStops_nil

/-! ## The recursive walk -/

/-- What an invocation, with the calls that it makes, can come to: it goes on, it is stopped by
its last call, or it goes on after a call that asked to stop. -/
inductive Outcome (turns : List Side) : List (Call K V) → ℤ → Prop where
  | goesOn {calls : List (Call K V)} {r : ℤ} (hnever : NeverStops calls) (hpos : 1 ≤ r) :
      Outcome turns calls r
  | stopped {as : List (Call K V)} {c : Call K V} {r : ℤ} (hnever : NeverStops as)
      (hstops : c.Stops) (q : List Side) (hturns : c.turns = q ++ turns)
      (htop : Side.left ∉ q.tail) (hr : r = -1 ∧ q = [] ∨ 1 ≤ r ∧ q ≠ []) :
      Outcome turns (as ++ [c]) r
  | overrun {as bs : List (Call K V)} {c b : Call K V} {r : ℤ} (hnever : NeverStops as)
      (hstops : c.Stops) (q : List Side) (hturns : c.turns = q ++ turns)
      (hdeep : Side.left ∈ q.tail) (hr : r = -1 ∨ 1 ≤ r) :
      Outcome turns (as ++ c :: b :: bs) r

section Outcome

variable {as bs calls : List (Call K V)} {b : Call K V} {side : Side} {r' : ℤ}

theorem Outcome.result (h : Outcome turns calls r) : r = -1 ∨ 1 ≤ r := by
  cases h with
  | goesOn _ hpos => exact Or.inr hpos
  | stopped _ _ _ _ _ hr => exact hr.imp And.left And.left
  | overrun _ _ _ _ _ hr => exact hr

theorem Outcome.after (h : Outcome turns calls r) (has : NeverStops as) :
    Outcome turns (as ++ calls) r := by
  cases h with
  | goesOn hnever hpos => exact .goesOn (neverStops_append.mpr ⟨has, hnever⟩) hpos
  | stopped hnever hstops q hturns htop hr =>
      rw [← List.append_assoc]
      exact .stopped (neverStops_append.mpr ⟨has, hnever⟩) hstops q hturns htop hr
  | overrun hnever hstops q hturns hdeep hr =>
      rw [← List.append_assoc]
      exact .overrun (neverStops_append.mpr ⟨has, hnever⟩) hstops q hturns hdeep hr

theorem ne_nil_of_mem_tail {q : List Side} (h : side ∈ q.tail) : q ≠ [] := by
  rintro rfl
  cases h

theorem turns_below {q : List Side} {c : Call K V} (h : c.turns = q ++ side :: turns) :
    c.turns = (q ++ [side]) ++ turns := by
  rw [h, List.append_assoc]
  rfl

theorem Outcome.overrun_below {q : List Side} {c : Call K V} (hnever : NeverStops as)
    (hstops : c.Stops) (hturns : c.turns = q ++ side :: turns)
    (hdeep : Side.left ∈ (q ++ [side]).tail) (hr : r = -1 ∨ 1 ≤ r) :
    Outcome turns (as ++ c :: b :: bs) r :=
  .overrun hnever hstops (q ++ [side]) (turns_below hturns) hdeep hr

theorem Outcome.of_child_stop (h : Outcome (side :: turns) calls (-1)) (hcnt : 1 ≤ cnt) :
    Outcome turns calls (cnt + 1) := by
  cases h with
  | goesOn _ hpos => omega
  | stopped hnever hstops q hturns htop hr =>
      obtain ⟨-, rfl⟩ | ⟨hpos, -⟩ := hr
      · refine .stopped hnever hstops [side] hturns ?_ (Or.inr ⟨by omega, List.cons_ne_nil _ _⟩)
        exact List.not_mem_nil
      · omega
  | overrun hnever hstops q hturns hdeep _ =>
      refine .overrun_below hnever hstops hturns ?_ (Or.inr (by omega))
      rw [List.tail_append_of_ne_nil (ne_nil_of_mem_tail hdeep)]
      exact List.mem_append_left _ hdeep

theorem Outcome.of_right (h : Outcome (.right :: turns) calls r) (hne : r ≠ -1) (hcnt : 1 ≤ cnt) :
    Outcome turns calls (cnt + r) := by
  have hpos := h.result.resolve_left hne
  cases h with
  | goesOn hnever _ => exact .goesOn hnever (by omega)
  | stopped hnever hstops q hturns htop hr =>
      obtain ⟨hr, -⟩ | ⟨-, hq⟩ := hr
      · exact absurd hr hne
      · refine .stopped hnever hstops (q ++ [.right]) (turns_below hturns) ?_
          (Or.inr ⟨by omega, List.append_ne_nil_of_left_ne_nil hq _⟩)
        rw [List.tail_append_of_ne_nil hq, List.mem_append, not_or]
        exact ⟨htop, by decide⟩
  | overrun hnever hstops q hturns hdeep _ =>
      refine .overrun_below hnever hstops hturns ?_ (Or.inr (by omega))
      rw [List.tail_append_of_ne_nil (ne_nil_of_mem_tail hdeep)]
      exact List.mem_append_left _ hdeep

/-- After the walk of the left child the node itself is visited, and that is too late for a
stop further down. -/
theorem Outcome.of_left (h : Outcome (.left :: turns) calls r) (hne : r ≠ -1)
    (hvisit : Outcome turns (b :: bs) r') : Outcome turns (calls ++ b :: bs) r' := by
  have hr' := hvisit.result
  cases h with
  | goesOn hnever _ => exact hvisit.after hnever
  | stopped hnever hstops q hturns htop hr =>
      obtain ⟨hr, -⟩ | ⟨-, hq⟩ := hr
      · exact absurd hr hne
      · rw [List.append_assoc]
        refine .overrun_below hnever hstops hturns ?_ hr'
        rw [List.tail_append_of_ne_nil hq]
        exact List.mem_append_right _ (List.mem_singleton_self _)
  | overrun hnever hstops q hturns hdeep _ =>
      rw [List.append_assoc]
      refine .overrun_below hnever hstops hturns ?_ hr'
      rw [List.tail_append_of_ne_nil (ne_nil_of_mem_tail hdeep)]
      exact List.mem_append_left _ hdeep

end Outcome

theorem addCount_eq_some {n m : ℤ} (h : addCount cnt n = some m) : m = cnt + n := by
  rw [addCount] at h
  by_cases hlt : cnt + n < 2 ^ 31
  · rw [if_pos hlt] at h
    exact (Option.some.inj h).symm
  · rw [if_neg hlt] at h
    cases h

variable {walk : Walk K V σ → Addr → Option (Walk K V σ × ℤ)} {child : Option Addr}
  {next : Walk K V σ → ℤ → Option (Walk K V σ × ℤ)}

/-- The three ways in which the walk of a child ends. -/
theorem walkChild_cases (h : walkChild walk s child cnt next = some (t, r)) :
    (child = none ∧ next s cnt = some (t, r)) ∨
      ∃ a s₁ r₁, child = some a ∧ walk s a = some (s₁, r₁) ∧
        (r₁ = -1 ∧ t = s₁ ∧ r = cnt + 1 ∨ r₁ ≠ -1 ∧ next s₁ (cnt + r₁) = some (t, r)) := by
  cases child with
  | none => exact Or.inl ⟨rfl, h⟩
  | some a =>
      obtain ⟨⟨s₁, r₁⟩, hwalk, h⟩ := Option.bind_eq_some_iff.mp h
      refine Or.inr ⟨a, s₁, r₁, rfl, hwalk, ?_⟩
      by_cases hstop : r₁ = -1
      · rw [if_pos hstop] at h
        obtain ⟨n, hadd, heq⟩ := Option.bind_eq_some_iff.mp h
        cases heq
        exact Or.inl ⟨hstop, rfl, addCount_eq_some hadd⟩
      · rw [if_neg hstop] at h
        obtain ⟨n, hadd, h⟩ := Option.bind_eq_some_iff.mp h
        obtain rfl := addCount_eq_some hadd
        exact Or.inr ⟨hstop, h⟩

/-- A call that did not ask to stop, and the walk of the right child after it. -/
theorem walkRight_outcome {c : Call K V}
    (hwalk : ∀ s a t r, walk s a = some (t, r) →
      ∃ calls, t.calls = s.calls ++ calls ∧ Outcome (.right :: turns) calls r)
    (hc : ¬ c.Stops) (hcnt : 1 ≤ cnt) (h : walkRight walk node s cnt = some (t, r)) :
    ∃ bs, t.calls = s.calls ++ bs ∧ Outcome turns (c :: bs) r := by
  obtain ⟨n, -, h⟩ := Option.bind_eq_some_iff.mp h
  have hbefore : NeverStops [c] := neverStops_cons.mpr ⟨hc, neverStops_nil⟩
  rcases walkChild_cases h with ⟨-, heq⟩ | ⟨a, s₁, r₁, -, hrun, hends⟩
  · cases heq
    exact ⟨[], (List.append_nil _).symm, .goesOn hbefore hcnt⟩
  · obtain ⟨calls, hcalls, hchild⟩ := hwalk s a s₁ r₁ hrun
    rcases hends with ⟨rfl, rfl, rfl⟩ | ⟨hne, heq⟩
    · exact ⟨calls, hcalls, (hchild.of_child_stop hcnt).after hbefore⟩
    · cases heq
      exact ⟨calls, hcalls, (hchild.of_right hne hcnt).after hbefore⟩

/-- The visit of a node begins with its call. -/
theorem visit_outcome
    (hwalk : ∀ s a t r, walk s a = some (t, r) →
      ∃ calls, t.calls = s.calls ++ calls ∧ Outcome (.right :: turns) calls r)
    (hcnt : 1 ≤ cnt) (h : visit cmp cb walk turns node s cnt = some (t, r)) :
    ∃ n b bs, s.tree.nodes node = some n ∧
      b = ⟨n.data.entry, (cb s.user n.data.entry).2, turns⟩ ∧ t.calls = s.calls ++ b :: bs ∧
      Outcome turns (b :: bs) r := by
  obtain ⟨⟨s₁, ret⟩, hcb, h⟩ := Option.bind_eq_some_iff.mp h
  obtain ⟨n, hn, hret, he⟩ := callback_calls hcb
  refine ⟨n, ⟨n.data.entry, ret, turns⟩, ?_⟩
  have hstop : (⟨n.data.entry, ret, turns⟩ : Call K V).Stops →
      Outcome turns [(⟨n.data.entry, ret, turns⟩ : Call K V)] (-1) := fun hstops =>
    .stopped neverStops_nil hstops [] rfl List.not_mem_nil (Or.inl ⟨rfl, rfl⟩)
  suffices hends : ∃ bs, t.calls = s.calls ++ ⟨n.data.entry, ret, turns⟩ :: bs ∧
      Outcome turns (⟨n.data.entry, ret, turns⟩ :: bs) r by
    obtain ⟨bs, hbs, hout⟩ := hends
    exact ⟨bs, hn, by rw [hret], hbs, hout⟩
  have hmore : ∀ {s₂ : Walk K V σ}, s₂.calls = s₁.calls → ret ≠ 0 → ret ≠ -2 →
      walkRight walk node s₂ cnt = some (t, r) →
      ∃ bs, t.calls = s.calls ++ ⟨n.data.entry, ret, turns⟩ :: bs ∧
        Outcome turns (⟨n.data.entry, ret, turns⟩ :: bs) r := by
    intro s₂ hs₂ hzero htwo hright
    obtain ⟨bs, hbs, hout⟩ := walkRight_outcome (c := ⟨n.data.entry, ret, turns⟩) hwalk
      (not_or.mpr ⟨hzero, htwo⟩) hcnt hright
    refine ⟨bs, ?_, hout⟩
    rw [hbs, hs₂, he, List.append_assoc]
    rfl
  dsimp only at h
  by_cases hzero : ret = 0
  · rw [if_pos hzero] at h
    cases h
    exact ⟨[], he, hstop (Or.inl hzero)⟩
  rw [if_neg hzero] at h
  by_cases hone : ret = -1
  · rw [if_pos hone] at h
    obtain ⟨s₂, hremove, h⟩ := Option.bind_eq_some_iff.mp h
    exact hmore (removeVisited_calls hremove) hzero (by omega) h
  rw [if_neg hone] at h
  by_cases htwo : ret = -2
  · rw [if_pos htwo] at h
    obtain ⟨s₂, hremove, heq⟩ := Option.bind_eq_some_iff.mp h
    cases heq
    exact ⟨[], (removeVisited_calls hremove).trans he, hstop (Or.inr htwo)⟩
  · rw [if_neg htwo] at h
    exact hmore rfl hzero htwo h

theorem internal_outcome : ∀ (fuel : ℕ) (turns : List Side) (s : Walk K V σ) (node : Addr)
    (t : Walk K V σ) (r : ℤ), avtWalkSortedInternal cmp cb fuel turns s node = some (t, r) →
    ∃ calls, t.calls = s.calls ++ calls ∧ Outcome turns calls r := by
  intro fuel
  induction fuel with
  | zero =>
      intro turns s node t r h
      cases h
  | succ fuel ih =>
      intro turns s node t r h
      obtain ⟨n, -, h⟩ := Option.bind_eq_some_iff.mp h
      rcases walkChild_cases h with ⟨-, hvisit⟩ | ⟨a, s₁, r₁, -, hrun, hends⟩
      · obtain ⟨-, b, bs, -, -, hbs, hout⟩ := visit_outcome (ih (.right :: turns)) (le_refl 1) hvisit
        exact ⟨b :: bs, hbs, hout⟩
      · obtain ⟨calls, hcalls, hchild⟩ := ih (.left :: turns) s a s₁ r₁ hrun
        rcases hends with ⟨rfl, rfl, rfl⟩ | ⟨hne, hvisit⟩
        · exact ⟨calls, hcalls, hchild.of_child_stop (le_refl 1)⟩
        · have hpos := hchild.result.resolve_left hne
          obtain ⟨-, b, bs, -, -, hbs, hout⟩ := visit_outcome (ih (.right :: turns)) (by omega) hvisit
          refine ⟨calls ++ b :: bs, ?_, hchild.of_left hne hout⟩
          rw [hbs, hcalls, List.append_assoc]

theorem Outcome.stopsAtOnce_iff {calls : List (Call K V)} (h : Outcome [] calls r) :
    StopsAtOnce calls ↔ StopsAtTop calls := by
  cases h with
  | goesOn hnever _ =>
      refine iff_of_true (stopsAtOnce_of_never hnever) ?_
      intro as c bs heq _ hc
      rw [heq] at hnever
      exact absurd hc (neverStops_cons.mp (neverStops_append.mp hnever).2).1
  | stopped hnever hstops q hturns htop _ =>
      refine iff_of_true (stopsAtOnce_append_singleton hnever) ?_
      intro as c bs heq has hc
      obtain ⟨-, rfl, -⟩ := append_inj_of_stops heq hnever hstops has hc
      rw [hturns, List.append_nil]
      exact htop
  | overrun hnever hstops q hturns hdeep _ =>
      refine iff_of_false (fun honce => ?_) (fun htop => ?_)
      · exact List.cons_ne_nil _ _ (honce _ _ _ rfl hstops)
      · have hnot := htop _ _ _ rfl hnever hstops
        rw [hturns, List.append_nil] at hnot
        exact hnot hdeep

theorem avltWalkSorted_stopsAtOnce_iff
    (h : avltWalkSorted cmp cb fuel tree user = some (t, r)) :
    StopsAtOnce t.calls ↔ StopsAtTop t.calls := by
  rw [avltWalkSorted] at h
  cases hroot : tree.root with
  | none =>
      rw [hroot] at h
      cases h
      refine iff_of_true (stopsAtOnce_of_never neverStops_nil) ?_
      intro as c bs heq
      cases as <;> cases heq
  | some root =>
      rw [hroot] at h
      obtain ⟨calls, hcalls, hout⟩ := internal_outcome _ _ _ _ _ _ h
      rw [hcalls]
      exact hout.stopsAtOnce_iff

end AvlTree
end LibHL
