import Mathlib.Algebra.Ring.Nat
import LibHL.BinHeap.Reachable

/-!
# Walks that end with their first removal

A callback that lets nodes pass until it has one removed and stops leaves the heap as it is
if it lets every node pass.  Otherwise a node is gone afterwards.  Nothing is asked of the
order of the keys.
-/

namespace LibHL
namespace BinHeap

variable {K V : Type} (cmp : K → K → ℤ)

/-- The callback that lets nodes pass until `stop` says, of the number of calls before, that
the node is to be removed and the walk to end. -/
def stopping (stop : ℕ → Bool) : WalkCallback K V :=
  fun calls _ _ => if stop calls.length = true then -2 else 1

/-- From call number `i` on, `n` nodes pass. -/
def Passes (stop : ℕ → Bool) (i n : ℕ) : Prop := ∀ j < n, stop (i + j) = false

variable {stop : ℕ → Bool} {i m n : ℕ}

theorem passes_zero : Passes stop i 0 := fun j hj => absurd hj (Nat.not_lt_zero j)

theorem passes_one : Passes stop i 1 ↔ stop i = false := by
  constructor
  · intro h
    exact h 0 Nat.one_pos
  · intro h j hj
    obtain rfl : j = 0 := Nat.lt_one_iff.mp hj
    exact h

theorem passes_add : Passes stop i (m + n) ↔ Passes stop i m ∧ Passes stop (i + m) n := by
  constructor
  · intro h
    refine ⟨fun j hj => h j (Nat.lt_add_right n hj), fun j hj => ?_⟩
    rw [Nat.add_assoc]
    exact h (m + j) (Nat.add_lt_add_left hj m)
  · rintro ⟨hm, hn⟩ j hj
    by_cases hjm : j < m
    · exact hm j hjm
    · have hrest := hn (j - m) (by omega)
      rwa [Nat.add_assoc, Nat.add_sub_cancel' (Nat.le_of_not_lt hjm)] at hrest

/-! ## What is left of a walk -/

variable {bh bh' : BinHeap K V} {s : WalkState K V} {l l₁ l₂ : List Addr} {a x : Addr}

/-- A node of the heap is gone. -/
def Lost (bh bh' : BinHeap K V) : Prop := ∃ x ∈ bh.nodes.live, bh'.nodes x = none

theorem Lost.ne (h : Lost bh bh') : bh' ≠ bh := by
  rintro rfl
  obtain ⟨x, hx, hnone⟩ := h
  obtain ⟨v, hv⟩ := Heap.exists_of_mem_live hx
  rw [hnone] at hv
  cases hv

theorem removeWalked_dead {s' : WalkState K V} (h : removeWalked cmp s x = some s') :
    s'.bh.nodes x = none := by
  simp only [removeWalked, binomialTreeNodeDestroy, Option.bind_eq_bind,
    Option.bind_eq_some_iff] at h
  obtain ⟨bh', ⟨_, -, _, -, _, -, bh₁, -, nodes, hfree, hbh⟩, hs⟩ := h
  obtain ⟨_, -, hkill⟩ := Option.map_eq_some_iff.mp hfree
  cases hs
  cases hbh
  rw [← hkill]
  exact if_pos rfl

/-- Some nodes have been walked: the heap is as it was and the walk goes on if they all
pass, and otherwise a node is gone and the walk ends. -/
structure Passed (stop : ℕ → Bool) (n : ℕ) (s : WalkState K V)
    (r : Option (WalkState K V × Bool)) : Prop where
  all : Passes stop s.calls.length n → ∃ calls, calls.length = s.calls.length + n ∧
    r = some ({ bh := s.bh, count := s.count + n, calls := calls }, true)
  stopped : ¬ Passes stop s.calls.length n →
    ∀ s' b, r = some (s', b) → b = false ∧ Lost s.bh s'.bh

/-- Some nodes after others. -/
theorem Passed.bind {r₁ : Option (WalkState K V × Bool)} (h₁ : Passed stop m s r₁)
    (next : WalkState K V → Option (WalkState K V × Bool))
    (h₂ : ∀ s', s'.bh = s.bh → s'.calls.length = s.calls.length + m → Passed stop n s' (next s')) :
    Passed stop (m + n) s
      (r₁.bind fun r => if r.2 = true then next r.1 else some (r.1, false)) where
  all := by
    intro hpass
    obtain ⟨hm, hn⟩ := passes_add.mp hpass
    obtain ⟨calls, hlen, hrun⟩ := h₁.all hm
    have hnext := h₂ { bh := s.bh, count := s.count + m, calls := calls } rfl hlen
    obtain ⟨calls', hlen', hrun'⟩ := hnext.all (hlen.symm ▸ hn)
    refine ⟨calls', ?_, ?_⟩
    · rw [hlen', hlen, Nat.add_assoc]
    · rw [hrun, Option.bind_some, if_pos rfl, hrun']
      congr 3
      dsimp only
      omega
  stopped := by
    intro hnot s' b hr
    obtain ⟨r, hr₁, hrest⟩ := Option.bind_eq_some_iff.mp hr
    by_cases hm : Passes stop s.calls.length m
    · obtain ⟨calls, hlen, hrun⟩ := h₁.all hm
      rw [hrun] at hr₁
      cases hr₁
      have hn : ¬ Passes stop (s.calls.length + m) n := fun hn => hnot (passes_add.mpr ⟨hm, hn⟩)
      have hnext := h₂ { bh := s.bh, count := s.count + m, calls := calls } rfl hlen
      exact hnext.stopped (hlen.symm ▸ hn) s' b hrest
    · obtain ⟨hb, hlost⟩ := h₁.stopped hm r.1 r.2 hr₁
      rw [hb, if_neg Bool.false_ne_true] at hrest
      cases hrest
      exact ⟨rfl, hlost⟩

theorem Passed.none : Passed stop 0 s (some (s, true)) where
  all := fun _ => ⟨s.calls, rfl, by simp⟩
  stopped := fun hnot => absurd passes_zero hnot

/-! ## The three loops -/

variable {fuel depth width : ℕ} {rank : Addr → ℕ}

/-- The loop over the children. -/
theorem walkChildren_passed {walk : WalkState K V → Addr → Option (WalkState K V × Bool)}
    {size : Addr → ℕ} : ∀ (rest done : List Addr) (s : WalkState K V) (fuel : ℕ),
    rest.length < fuel → a ∈ s.bh.nodes.live → childrenOf s.bh.nodes a = done ++ rest →
    (∀ d ∈ rest, ∀ s', s'.bh = s.bh → Passed stop (size d) s' (walk s' d)) →
    Passed stop (rest.map size).sum s (walkChildren walk a fuel s done.length) := by
  intro rest
  induction rest with
  | nil =>
      intro done s fuel hfuel ha hkids _
      obtain ⟨n, hn⟩ := Heap.exists_of_mem_live ha
      rw [childrenOf_eq hn, List.append_nil] at hkids
      cases fuel with
      | zero => exact absurd hfuel (Nat.not_lt_zero _)
      | succ fuel =>
          have hend : walkChildren walk a (fuel + 1) s done.length = some (s, true) := by
            simp only [walkChildren, hn, hkids, Option.bind_eq_bind, Option.bind_some,
              List.getElem?_length]
          rw [hend]
          exact Passed.none
  | cons d rest ih =>
      intro done s fuel hfuel ha hkids hwalk
      obtain ⟨n, hn⟩ := Heap.exists_of_mem_live ha
      have hchild : n.children[done.length]? = some d := by
        rw [← childrenOf_eq hn, hkids, List.getElem?_append_right (Nat.le_refl _), Nat.sub_self]
        rfl
      cases fuel with
      | zero => exact absurd hfuel (Nat.not_lt_zero _)
      | succ fuel =>
          have hround : walkChildren walk a (fuel + 1) s done.length =
              (walk s d).bind fun r =>
                if r.2 = true then walkChildren walk a fuel r.1 (done ++ [d]).length
                else some (r.1, false) := by
            simp only [walkChildren, hn, hchild, Option.bind_eq_bind, Option.bind_some,
              List.length_append, List.length_singleton]
          rw [hround, List.map_cons, List.sum_cons]
          refine (hwalk d List.mem_cons_self s rfl).bind
            (fun s' => walkChildren walk a fuel s' (done ++ [d]).length) fun s' hs' _ => ?_
          refine ih (done ++ [d]) s' fuel (Nat.lt_of_succ_lt_succ hfuel) (hs' ▸ ha) ?_ ?_
          · rw [hs', hkids, List.append_assoc]
            rfl
          · intro e he s'' hs''
            exact hwalk e (List.mem_cons_of_mem d he) s'' (hs''.trans hs')

/-- The visit of a node, before its children. -/
theorem binomialTreeWalk_passed
    (hrank : ∀ a ∈ bh.nodes.live, ∀ x ∈ childrenOf bh.nodes a, rank x < rank a)
    (hkid : ∀ a ∈ bh.nodes.live, ∀ x ∈ childrenOf bh.nodes a, x ∈ bh.nodes.live)
    (hwidth : ∀ a ∈ bh.nodes.live, (childrenOf bh.nodes a).length < width) :
    ∀ (depth fuel : ℕ) (a : Addr) (s : WalkState K V), a ∈ bh.nodes.live → rank a < depth →
      depth + width ≤ fuel → s.bh = bh →
      Passed stop (subtree bh.nodes depth a).length s
        (binomialTreeWalk cmp (stopping stop) fuel s a) := by
  intro depth
  induction depth with
  | zero =>
      intro fuel a s _ hlt
      exact absurd hlt (Nat.not_lt_zero _)
  | succ depth ih =>
      intro fuel a s ha hlt hfuel hs
      subst hs
      obtain ⟨n, hn⟩ := Heap.exists_of_mem_live ha
      cases fuel with
      | zero => omega
      | succ fuel =>
          have hsize : (subtree s.bh.nodes (depth + 1) a).length =
              1 + ((childrenOf s.bh.nodes a).map fun d => (subtree s.bh.nodes depth d).length).sum := by
            rw [subtree, List.length_cons, List.length_flatMap, Nat.add_comm]
          rw [hsize]
          by_cases hstop : stop s.calls.length = true
          · -- The node is removed without a look at its children.
            have hnot : ¬ Passes stop s.calls.length (1 +
                ((childrenOf s.bh.nodes a).map fun d => (subtree s.bh.nodes depth d).length).sum) := by
              intro hpass
              rw [passes_one.mp (passes_add.mp hpass).1] at hstop
              cases hstop
            refine ⟨fun hpass => absurd hpass hnot, fun _ s' b hr => ?_⟩
            simp only [binomialTreeWalk, hn, Option.bind_eq_bind, Option.bind_some, stopping,
              hstop, if_true, decodeAnswer, Bool.false_eq_true, if_false,
              Option.bind_eq_some_iff, Option.some.injEq, Prod.mk.injEq] at hr
            obtain ⟨s₁, hremove, rfl, rfl⟩ := hr
            exact ⟨rfl, a, ha, removeWalked_dead cmp hremove⟩
          · have hpass : stop s.calls.length = false := Bool.not_eq_true _ ▸ hstop
            have hvisit : Passed stop 1 s (some ({ s with
                count := s.count + 1, calls := s.calls ++ [item n] }, true)) := by
              refine ⟨fun _ => ⟨s.calls ++ [item n], by simp, rfl⟩, fun hnot => ?_⟩
              exact absurd (passes_one.mpr hpass) hnot
            have hrun : binomialTreeWalk cmp (stopping stop) (fuel + 1) s a =
                (some (({ s with count := s.count + 1, calls := s.calls ++ [item n] } :
                    WalkState K V), true)).bind fun r =>
                  if r.2 = true then walkChildren (binomialTreeWalk cmp (stopping stop) fuel) a
                    fuel r.1 0
                  else some (r.1, false) := by
              have hdecode : decodeAnswer (stopping stop s.calls n.key n.value) = (true, false) := by
                simp [stopping, hpass, decodeAnswer]
              simp only [binomialTreeWalk, hn, Option.bind_eq_bind, Option.bind_some, hdecode,
                if_true, Bool.false_eq_true, if_false]
              cases walkChildren (binomialTreeWalk cmp (stopping stop) fuel) a fuel
                { s with count := s.count + 1, calls := s.calls ++ [item n] } 0 <;> rfl
            rw [hrun]
            refine hvisit.bind
              (fun s' => walkChildren (binomialTreeWalk cmp (stopping stop) fuel) a fuel s' 0)
              fun s' hs' _ => ?_
            have hlive : a ∈ s'.bh.nodes.live := hs' ▸ ha
            refine walkChildren_passed (childrenOf s.bh.nodes a) [] s' fuel ?_ hlive ?_ ?_
            · have := hwidth a ha
              omega
            · rw [hs']
              rfl
            · intro d hd s'' hs''
              have hdrank := hrank a ha d hd
              exact ih fuel d s'' (hkid a ha d hd) (by omega) (by omega) (hs''.trans hs')

/-- The loop over the trees. -/
theorem walkTrees_passed {cb : WalkCallback K V} {size : Addr → ℕ} :
    ∀ (rest done : List Addr) (s : WalkState K V) (fuel : ℕ), rest.length < fuel →
    s.bh.trees = done ++ rest →
    (∀ d ∈ rest, ∀ s', s'.bh = s.bh →
      Passed stop (size d) s' (binomialTreeWalk cmp cb depth s' d)) →
    (Passes stop s.calls.length (rest.map size).sum →
      ∃ calls, walkTrees cmp cb depth fuel s done.length = some
        { bh := s.bh, count := s.count + (rest.map size).sum, calls := calls }) ∧
    (¬ Passes stop s.calls.length (rest.map size).sum →
      ∀ s', walkTrees cmp cb depth fuel s done.length = some s' → Lost s.bh s'.bh) := by
  intro rest
  induction rest with
  | nil =>
      intro done s fuel hfuel htrees _
      rw [List.append_nil] at htrees
      cases fuel with
      | zero => exact absurd hfuel (Nat.not_lt_zero _)
      | succ fuel =>
          refine ⟨fun _ => ⟨s.calls, ?_⟩, fun hnot => ?_⟩
          · simp only [walkTrees, htrees, List.getElem?_length, List.map_nil, List.sum_nil,
              Int.natCast_zero, Int.add_zero]
          · exact absurd passes_zero hnot
  | cons d rest ih =>
      intro done s fuel hfuel htrees hwalk
      have htree : s.bh.trees[done.length]? = some d := by
        rw [htrees, List.getElem?_append_right (Nat.le_refl _), Nat.sub_self]
        rfl
      cases fuel with
      | zero => exact absurd hfuel (Nat.not_lt_zero _)
      | succ fuel =>
          have hround : walkTrees cmp cb depth (fuel + 1) s done.length =
              (binomialTreeWalk cmp cb depth s d).bind fun r =>
                if r.2 = true then walkTrees cmp cb depth fuel r.1 (done ++ [d]).length
                else some r.1 := by
            simp only [walkTrees, htree, Option.bind_eq_bind, List.length_append,
              List.length_singleton]
          have hfirst := hwalk d List.mem_cons_self s rfl
          rw [hround, List.map_cons, List.sum_cons, passes_add]
          by_cases hd : Passes stop s.calls.length (size d)
          · obtain ⟨calls, hlen, hrun⟩ := hfirst.all hd
            obtain ⟨hall, hstopped⟩ := ih (done ++ [d])
              { bh := s.bh, count := s.count + size d, calls := calls } fuel
              (Nat.lt_of_succ_lt_succ hfuel) (by rw [htrees, List.append_assoc]; rfl)
              fun e he s' hs' => hwalk e (List.mem_cons_of_mem d he) s' hs'
            rw [hlen] at hall hstopped
            rw [hrun, Option.bind_some, if_pos rfl]
            constructor
            · intro hpass
              obtain ⟨calls', hrun'⟩ := hall hpass.2
              refine ⟨calls', hrun'.trans ?_⟩
              congr 2
              dsimp only
              omega
            · intro hnot s' hs'
              exact hstopped (fun hrest => hnot ⟨hd, hrest⟩) s' hs'
          · refine ⟨fun hpass => absurd hpass.1 hd, fun _ s' hs' => ?_⟩
            obtain ⟨r, hr, hrest⟩ := Option.bind_eq_some_iff.mp hs'
            obtain ⟨hb, hlost⟩ := hfirst.stopped hd r.1 r.2 hr
            rw [hb, if_neg Bool.false_ne_true] at hrest
            cases hrest
            exact hlost

/-! ## The walk of a heap -/

/-- A walk leaves the heap alone if all its nodes pass, and otherwise it does not. -/
theorem binheapWalk_stopping (hf : Forest bh.nodes.live bh.trees (parentOf bh.nodes)
      (childrenOf bh.nodes)) (stop : ℕ → Bool) :
    (Passes stop 0 bh.nodes.live.card →
      ∃ s, binheapWalk cmp (stopping stop) (walkFuel bh) bh = some s ∧ s.bh = bh ∧
        s.count = bh.nodes.live.card) ∧
    (¬ Passes stop 0 bh.nodes.live.card →
      ∀ s, binheapWalk cmp (stopping stop) (walkFuel bh) bh = some s → s.bh ≠ bh) := by
  obtain ⟨rank, hrank, hcard⟩ := hf.exists_rank_lt
  have hkid : ∀ a ∈ bh.nodes.live, ∀ x ∈ childrenOf bh.nodes a, x ∈ bh.nodes.live :=
    fun a ha x hx => hf.mem_of_kid ha hx
  have hwidth : ∀ a ∈ bh.nodes.live, (childrenOf bh.nodes a).length < bh.nodes.brk + 1 :=
    fun a ha => Nat.lt_succ_of_le (Heap.length_le_brk (hf.kidsNodup a ha) (hkid a ha))
  have hroot : ∀ r ∈ bh.trees, r ∈ bh.nodes.live := fun r hr => hf.mem_of_root hr
  have htrees : bh.trees.length < walkFuel bh := by
    have hle := Heap.length_le_brk hf.rootsNodup hroot
    rw [walkFuel]
    omega
  have hsize : (bh.trees.map fun r => (subtree bh.nodes bh.nodes.brk r).length).sum =
      bh.nodes.live.card := by
    rw [← List.length_flatMap, (flatMap_subtree_perm hf).length_eq, Finset.length_toList]
  have hwalk : ∀ r ∈ bh.trees, ∀ s', s'.bh = bh →
      Passed stop (subtree bh.nodes bh.nodes.brk r).length s'
        (binomialTreeWalk cmp (stopping stop) (walkFuel bh) s' r) := by
    intro r hr s' hs'
    refine binomialTreeWalk_passed cmp hrank hkid hwidth _ _ r s' (hroot r hr) ?_ ?_ hs'
    · exact Nat.lt_of_lt_of_le (hcard r (hroot r hr)) bh.nodes.card_live_le_brk
    · rw [walkFuel]
      omega
  obtain ⟨hall, hstopped⟩ := walkTrees_passed cmp bh.trees []
    { bh := bh, count := 0, calls := [] } (walkFuel bh) htrees rfl hwalk
  rw [hsize] at hall hstopped
  constructor
  · intro hpass
    obtain ⟨calls, hrun⟩ := hall hpass
    exact ⟨_, hrun, rfl, Int.zero_add _⟩
  · intro hnot s hs
    exact (hstopped hnot s hs).ne

end BinHeap
end LibHL
