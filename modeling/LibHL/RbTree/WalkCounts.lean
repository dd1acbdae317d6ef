import LibHL.RbTree.WalkStops

/-!
# When the count of a walk is right

What a walk has to do is to stop at the first answer that asks for it, and to return the
number of its calls.  It does so exactly for those callbacks whose answers fit the tree.
-/

namespace LibHL
namespace RbTree

open LinkedNode PTree RbtData

variable {V σ : Type}

/-! ## What is asked, and the condition -/

/-- The callback is not called again after it has stopped the walk, and the walk returns the
number of its calls. -/
def WalkCounts (cmp : List UInt8 → List UInt8 → ℤ) (mem : Bool)
    (cb : σ → List UInt8 × ℕ × Option V → σ × ℤ) (sorted : Bool) (tree : Rbt V) (user : σ) :
    Prop :=
  ∃ s r, walkTree cmp mem cb sorted tree user = some (s, r) ∧ StopsAtOnce s.calls ∧
    r = s.calls.length

/-- The calls that are not counted below the node `f`, which adds one for the walk that
returned zero: those of skipped nodes and of the left subtree of `p`, and in order that of `f`
itself. -/
def missing (sorted : Bool) (made : List (Place (RbtData V) × ℤ)) (p : Place (RbtData V))
    (f : Frame (RbtData V)) : ℕ :=
  skipped made + leftCalls sorted p + called sorted f.side

/-- The walk may stop at `p`: the subtree whose walk returns zero has a parent, which is
reached through right children only, and that parent adds what is missing. -/
def StopFits (sorted : Bool) (made : List (Place (RbtData V) × ℤ)) (p : Place (RbtData V)) :
    Prop :=
  ∃ f fs, StopFrames made p (f :: fs) ∧ (∀ g ∈ fs, g.side = .right) ∧ missing sorted made p f = 1

/-- The answers of the callback fit the tree: their number is an `int`; if none interrupts the
walk, then none skips a node; and if one does, then it is to stop where the walk may stop. -/
structure WalkFits (cb : σ → List UInt8 × ℕ × Option V → σ × ℤ) (sorted : Bool) (user : σ)
    (T : PTree (RbtData V)) : Prop where
  small : (answers cb sorted user (places sorted T)).made.length < 2 ^ 31
  passed : (answers cb sorted user (places sorted T)).refused = none →
    skipped (answers cb sorted user (places sorted T)).made = 0
  stopped : ∀ p code, (answers cb sorted user (places sorted T)).refused = some (p, code) →
    code ≠ -1 ∧ StopFits sorted (answers cb sorted user (places sorted T)).made p

/-! ## The three ways in which a walk can end -/

section Ends

variable {cmp : List UInt8 → List UInt8 → ℤ} {mem : Bool}
  {cb : σ → List UInt8 × ℕ × Option V → σ × ℤ} {sorted : Bool} {tree : Rbt V} {user : σ}
  {T : PTree (RbtData V)} {r : Asked (Place (RbtData V)) ℤ σ} {p : Place (RbtData V)} {code : ℤ}
  {S : Walk V σ} {n : ℤ} {made : List (Place (RbtData V) × ℤ)} {e e' : List (Frame (RbtData V))}

theorem StopFrames.unique (h : StopFrames made p e) (h' : StopFrames made p e') : e = e' := by
  rcases h with ⟨hnot, rfl⟩ | ⟨hdown, f, hf⟩
  · rcases h' with ⟨-, heq⟩ | ⟨hdown, -⟩
    · exact heq
    · exact absurd hdown hnot
  · rcases h' with ⟨hnot, -⟩ | ⟨-, g, hg⟩
    · exact absurd hdown hnot
    · exact (List.cons.inj (hf.symm.trans hg)).2

theorem walkTree_small (h : walkTree cmp mem cb sorted tree user = some (S, n)) : n < 2 ^ 31 := by
  rw [walkTree] at h
  cases hroot : tree.root with
  | none =>
      rw [hroot] at h
      cases h
      decide
  | some a =>
      rw [hroot] at h
      exact (walk_walked _ _ a S n h).small

theorem walkTree_eq (h : Represents tree T) : walkTree cmp mem cb sorted tree user =
    rbtWalkInternal cmp mem cb sorted (tree.nodes.brk + 1) ⟨tree, user, []⟩ T.addr := by
  rw [walkTree, h.root_eq]

theorem height_le_fuel (h : Represents tree T) : T.height ≤ tree.nodes.brk + 1 :=
  (Nat.le_add_right _ _).trans (h.placed.height_le_brk.trans (Nat.le_succ _))

theorem calls_fed_nil : (Walk.fed ⟨tree, user, []⟩ r).calls =
    r.made.map fun c => (c.1.data.entry, c.2) := List.nil_append _

theorem neverStops_of_goesOn (h : ∀ c ∈ made, GoesOn sorted c.1 c.2) :
    NeverStops (made.map fun c => (c.1.data.entry, c.2)) := by
  intro c hc hstop
  obtain ⟨c', hc', rfl⟩ := List.mem_map.mp hc
  obtain ⟨hzero, htwo, -⟩ := h c' hc'
  exact hstop.elim hzero htwo

theorem NeverStops.stopsAtOnce {β : Type*} {l : List (β × ℤ)} (h : NeverStops l) :
    StopsAtOnce l := by
  rintro as c bs rfl hstop
  exact absurd hstop (h c (List.mem_append_right _ List.mem_cons_self))

theorem NeverStops.stopsAtOnce_concat {β : Type*} {l : List (β × ℤ)} (h : NeverStops l)
    (c : β × ℤ) : StopsAtOnce (l ++ [c]) := by
  intro as c' bs heq hstop
  rcases List.eq_nil_or_concat bs with rfl | ⟨bs, b, rfl⟩
  · rfl
  · rw [List.concat_eq_append, ← List.cons_append, ← List.append_assoc] at heq
    have hl := (List.append_inj' heq rfl).1
    rw [hl] at h
    exact absurd hstop (h c' (List.mem_append_right _ List.mem_cons_self))

/-- Nothing interrupts the walk. -/
theorem counts_iff_of_none (h : Represents tree T)
    (hr : (answers cb sorted user (places sorted T)).refused = none) :
    WalkCounts cmp mem cb sorted tree user ↔ WalkFits cb sorted user T := by
  have hlength := length_answers hr
  have hgoes := goes_of_none hr
  obtain ⟨n, hn⟩ : ∃ n, Passes (rbtWalkInternal cmp mem cb sorted (tree.nodes.brk + 1))
      ⟨tree, user, []⟩ T (answers cb sorted user (places sorted T)) n :=
    walk_passes T _ _ [] (height_le_fuel h) h.placed hr
  obtain ⟨hcounts, -, hleads⟩ := hn
  rw [← walkTree_eq h] at hleads
  constructor
  · rintro ⟨S, r, hrun, -, hcount⟩
    have hsmall := walkTree_small hrun
    rcases hleads with hleads | ⟨hnone, -⟩
    · rw [hrun] at hleads
      cases hleads
      rw [calls_fed_nil, List.length_map] at hcount
      refine ⟨by omega, fun _ => by omega, fun p code hp => ?_⟩
      rw [hr] at hp
      cases hp
    · rw [hrun] at hnone
      cases hnone
  · intro hfits
    have hsmall := hfits.small
    have hskipped := hfits.passed hr
    rcases hleads with hleads | ⟨-, hlarge⟩
    · refine ⟨_, _, hleads, ?_, ?_⟩
      · rw [calls_fed_nil]
        exact (neverStops_of_goesOn fun c hc => of_decide_eq_true (hgoes c hc)).stopsAtOnce
      · rw [calls_fed_nil, List.length_map]
        omega
    · omega

/-- A node with children is to be removed. -/
theorem counts_iff_of_again (h : Represents tree T)
    (hr : (answers cb sorted user (places sorted T)).refused = some (p, -1)) :
    WalkCounts cmp mem cb sorted tree user ↔ WalkFits cb sorted user T := by
  have hreached : Reached (fun user d => cb user d.entry)
      (fun p code => decide (GoesOn sorted p code)) sorted user T
      (answers cb sorted user (places sorted T)) :=
    reached_of_refused (fun _ _ _ => rfl) fun hnone => Option.some_ne_none _ (hr.symm.trans hnone)
  refine iff_of_false ?_ fun hfits => (hfits.stopped p (-1) hr).1 rfl
  rintro ⟨S, r, hrun, honce, hcount⟩
  rw [walkTree_eq h] at hrun
  have hwalked := reached_again hreached (s := ⟨tree, user, []⟩) rfl (height_le_fuel h) h.placed hr
    hrun
  have hfew := (hwalked.stopped honce).2
  rw [hcount, List.length_nil] at hfew
  cases sorted with
  | false =>
      have hspare : spare false = 0 := rfl
      have hagain : againCalls false = 1 := rfl
      omega
  | true =>
      have hspare : spare true = 1 := rfl
      have hagain : againCalls true = 2 := rfl
      omega

theorem fits_iff_of_stop (hcode : code ≠ -1)
    (hr : (answers cb sorted user (places sorted T)).refused = some (p, code)) :
    WalkFits cb sorted user T ↔ (answers cb sorted user (places sorted T)).made.length < 2 ^ 31 ∧
      StopFits sorted (answers cb sorted user (places sorted T)).made p := by
  constructor
  · exact fun hfits => ⟨hfits.small, (hfits.stopped p code hr).2⟩
  · rintro ⟨hsmall, hfits⟩
    refine ⟨hsmall, fun hnone => ?_, fun q code' hq => ?_⟩
    · rw [hr] at hnone
      cases hnone
    · rw [hr] at hq
      cases hq
      exact ⟨hcode, hfits⟩

/-- The calls of a walk that is stopped: the last one asks for the stop, and no other. -/
theorem calls_of_stop (tree : Rbt V) (hcode : code = 0 ∨ code = -2)
    (hr : (answers cb sorted user (places sorted T)).refused = some (p, code)) :
    StopsAtOnce (Walk.fed ⟨tree, user, []⟩ (answers cb sorted user (places sorted T))).calls ∧
      ¬ NeverStops (Walk.fed ⟨tree, user, []⟩ (answers cb sorted user (places sorted T))).calls ∧
      0 < (answers cb sorted user (places sorted T)).made.length := by
  obtain ⟨-, -, before, hmade, hbefore⟩ := made_of_some hr
  have hmade' : (answers cb sorted user (places sorted T)).made = before ++ [(p, code)] := hmade
  rw [calls_fed_nil, hmade', List.map_append, List.map_singleton]
  refine ⟨(neverStops_of_goesOn fun c hc => of_decide_eq_true (hbefore c hc)).stopsAtOnce_concat _,
    fun hnever => ?_, ?_⟩
  · exact hnever _ (List.mem_append_right _ (List.mem_singleton_self _)) hcode
  · rw [List.length_append]
    exact Nat.succ_pos _

theorem counts_iff_of_stop (hcode : code = 0 ∨ code = -2)
    (hr : (answers cb sorted user (places sorted T)).refused = some (p, code))
    (he : StopFrames (answers cb sorted user (places sorted T)).made p e)
    (houtcome : Outcome sorted (walkTree cmp mem cb sorted tree user) ⟨tree, user, []⟩
      (answers cb sorted user (places sorted T)) p [] e) :
    WalkCounts cmp mem cb sorted tree user ↔ WalkFits cb sorted user T := by
  have hnot : code ≠ -1 := by
    rcases hcode with rfl | rfl <;> decide
  obtain ⟨honce, hstops, hpos⟩ := calls_of_stop tree hcode hr
  rw [fits_iff_of_stop hnot hr]
  obtain ⟨A, hA⟩ : ∃ A, answers cb sorted user (places sorted T) = A := ⟨_, rfl⟩
  rw [hA] at he houtcome honce hstops hpos ⊢
  have hlen : (Walk.fed ⟨tree, user, []⟩ A).calls.length = A.made.length := by
    rw [calls_fed_nil, List.length_map]
  cases houtcome with
  | @zero S k hk hk' hcount hrun hcalls habove =>
      refine iff_of_false ?_ ?_
      · rintro ⟨S', r, hrun', -, hr'⟩
        rcases hrun with hrun | ⟨hnone, -⟩
        · rw [hrun'] at hrun
          cases hrun
          rw [hcalls, hlen] at hr'
          omega
        · rw [hrun'] at hnone
          cases hnone
      · rintro ⟨-, f, fs, hframes, -⟩
        cases he.unique hframes
  | @counted S k n f gs hright hk hk' hpos' hcount hrun hcalls habove =>
      constructor
      · rintro ⟨S', r, hrun', -, hr'⟩
        have hsmall := walkTree_small hrun'
        rcases hrun with hrun | ⟨hnone, -⟩
        · rw [hrun'] at hrun
          cases hrun
          rw [hcalls, hlen] at hr'
          refine ⟨by omega, f, gs, he, hright, ?_⟩
          rw [missing]
          omega
        · rw [hrun'] at hnone
          cases hnone
      · rintro ⟨hsmall, g, fs, hframes, -, hmissing⟩
        cases he.unique hframes
        rw [missing] at hmissing
        rcases hrun with hrun | ⟨-, hlarge⟩
        · refine ⟨S, n, hrun, hcalls ▸ honce, ?_⟩
          rw [hcalls, hlen]
          omega
        · omega
  | @beyond f gs hleft hmore =>
      refine iff_of_false ?_ ?_
      · rintro ⟨S, r, hrun, honce', -⟩
        obtain ⟨hgrows, hlt⟩ := hmore S r hrun
        exact hstops (honce'.neverStops hgrows hlt)
      · rintro ⟨-, g, fs, hframes, hright, -⟩
        cases he.unique hframes
        exact hleft hright

/-- The node where a walk may stop can be removed. -/
theorem removable_of_place (c : Comparator (List UInt8)) (mem : Bool) (user : σ)
    (h : Represents tree T) (hrb : RedBlack RbtData.color T) (hwhole : Whole T)
    (hord : Ordered c RbtData.key T) (hp : p ∈ places sorted T) :
    Removable c.cmp mem ⟨tree, user, []⟩ p.addr (p.above ++ []) := by
  have hplug := plug_place hp
  rw [← hplug] at h hrb hwhole hord
  intro s' hs'
  rw [List.append_nil]
  rw [← show s'.tree = tree from hs'] at h
  exact removeVisited_above c mem h hrb hwhole hord

end Ends

/-- A walk stops at once and returns the number of its calls exactly if the answers of the
callback fit the tree. -/
theorem walkCounts_iff_fits (c : Comparator (List UInt8)) (mem sorted : Bool)
    (cb : σ → List UInt8 × ℕ × Option V → σ × ℤ) (tree : Rbt V) (T : PTree (RbtData V)) (user : σ)
    (h : Represents tree T) (hrb : RedBlack RbtData.color T) (hwhole : Whole T)
    (hord : Ordered c RbtData.key T) :
    WalkCounts c.cmp mem cb sorted tree user ↔ WalkFits cb sorted user T := by
  cases hr : (answers cb sorted user (places sorted T)).refused with
  | none => exact counts_iff_of_none h hr
  | some q =>
      obtain ⟨p, code⟩ := q
      obtain ⟨hp, hrefused, -⟩ := made_of_some hr
      by_cases hagain : code = -1
      · subst hagain
        exact counts_iff_of_again h hr
      · have hcode : code = 0 ∨ code = -2 := by
          by_contra hnot
          obtain ⟨hzero, htwo⟩ := not_or.mp hnot
          exact hrefused (decide_eq_true ⟨hzero, htwo, fun heq => absurd heq hagain⟩)
        have hreached := reached_of_refused (fun _ _ _ => rfl) fun hnone =>
          Option.some_ne_none _ (hr.symm.trans hnone)
        obtain ⟨e, he⟩ := exists_stopFrames (answers cb sorted user (places sorted T)).made p
        have hcol := (redBlack_iff.mp hrb).2
        have houtcome := reached_outcome (s := ⟨tree, user, []⟩) hreached rfl (height_le_fuel h)
          h.placed hcol hr hcode (removable_of_place c mem user h hrb hwhole hord hp) he
        rw [← walkTree_eq h] at houtcome
        exact counts_iff_of_stop hcode hr he houtcome

/-- A callback that stops the walk at one key. -/
def stopAt (key : List UInt8) (_ : Unit) (entry : List UInt8 × ℕ × Option ℕ) : Unit × ℤ :=
  ((), if entry.1 = key then 0 else 1)

theorem walkCounts_iff_fits_child :
    WalkCounts lexicographic.cmp true (stopAt [1, 1]) false longNeighbourTree () ↔
      WalkFits (stopAt [1, 1]) false () longNeighbour :=
  walkCounts_iff_fits lexicographic.toComparator true false (stopAt [1, 1]) longNeighbourTree
    longNeighbour () represents_longNeighbourTree (by decide) (by decide +kernel)
    ordered_longNeighbour

/-- After a stop at a grandchild of the root the walk goes on to the right child of the root;
a stop at the root itself returns zero after one call. -/
theorem stop_two_levels_down :
    RedBlack RbtData.color deepNeighbour ∧ Represents deepNeighbourTree deepNeighbour ∧
      Whole deepNeighbour ∧ Ordered lexicographic.toComparator RbtData.key deepNeighbour ∧
      ¬ WalkCounts lexicographic.cmp true (stopAt [0]) false deepNeighbourTree () ∧
      ¬ WalkCounts lexicographic.cmp true (stopAt [5]) false deepNeighbourTree () := by
  have hdeep : (walkTree lexicographic.cmp true (stopAt [0]) false deepNeighbourTree ()).map
      (fun p => p.1.calls) = some [(([5], 1, some 1), 1), (([1], 1, some 1), 1),
        (([0], 1, some 1), 0), (([9], 1, some 1), 1)] := by
    decide
  have hroot : (walkTree lexicographic.cmp true (stopAt [5]) false deepNeighbourTree ()).map
      (fun p => (p.1.calls.length, p.2)) = some (1, 0) := by
    decide
  refine ⟨by decide, represents_deepNeighbourTree, by decide +kernel,
    ordered_deepNeighbour, ?_, ?_⟩
  · rintro ⟨s, r, hrun, honce, -⟩
    rw [hrun] at hdeep
    have hnil := honce [_, _] _ [_] (Option.some.inj hdeep) (Or.inl rfl)
    cases hnil
  · rintro ⟨s, r, hrun, -, hcount⟩
    rw [hrun] at hroot
    have hlength : s.calls.length = 1 := (Prod.mk.inj (Option.some.inj hroot)).1
    have hzero : r = 0 := (Prod.mk.inj (Option.some.inj hroot)).2
    rw [hlength, hzero] at hcount
    cases hcount

end RbTree
end LibHL
