import LibHL.RbTree.Invariant
import LibHL.RbTree.Walk
import LibHL.Support.TreePlaces

/-!
# Walks without interruption

A walk that is not interrupted asks about the nodes in preorder or in order, and leaves the
tree as it is.  What it counts is the number of its calls, without those nodes whose walk was
left to that of their only child.
-/

namespace LibHL
namespace RbTree

open LinkedNode PTree RbtData

variable {V σ : Type}

/-! ## What is asked -/

/-- The answer lets the walk go on to the next node.  If the node is to be removed, this is so
if there is no child that has been walked, or that is walked first. -/
def GoesOn (sorted : Bool) (p : Place (RbtData V)) (code : ℤ) : Prop :=
  code ≠ 0 ∧ code ≠ -2 ∧
    (code = -1 → p.left.addr = none ∧ (sorted = false → p.right.addr = none))

instance (sorted : Bool) (p : Place (RbtData V)) (code : ℤ) : Decidable (GoesOn sorted p code) :=
  inferInstanceAs (Decidable (_ ∧ _ ∧ (code = -1 → _ ∧ (sorted = false → _))))

/-- The answers of the callback for some places, up to the first one that does not let the
walk go on. -/
def answers (cb : σ → List UInt8 × ℕ × Option V → σ × ℤ) (sorted : Bool) (user : σ)
    (ps : List (Place (RbtData V))) : Asked (Place (RbtData V)) ℤ σ :=
  askPlaces (fun user d => cb user d.entry) (fun p code => decide (GoesOn sorted p code)) user ps

/-- Nodes whose walk is left to that of their right child, so that they do not count. -/
def skipped (made : List (Place (RbtData V) × ℤ)) : ℕ :=
  made.countP fun c => decide (c.2 = -1 ∧ c.1.right.addr ≠ none)

/-- A walk after some calls. -/
def Walk.fed (s : Walk V σ) (r : Asked (Place (RbtData V)) ℤ σ) : Walk V σ :=
  { s with
    user := r.user
    calls := s.calls ++ r.made.map fun c => (c.1.data.entry, c.2) }

variable {cmp : List UInt8 → List UInt8 → ℤ} {mem : Bool}
  {cb : σ → List UInt8 × ℕ × Option V → σ × ℤ} {sorted : Bool} {s : Walk V σ}
  {r : Asked (Place (RbtData V)) ℤ σ} {user : σ}

theorem skipped_append (as bs : List (Place (RbtData V) × ℤ)) :
    skipped (as ++ bs) = skipped as + skipped bs := List.countP_append

theorem skipped_rename (f : Frame (RbtData V)) :
    skipped (r.rename (Place.below f)).made = skipped r.made := by
  rw [skipped, Asked.rename, List.countP_map]
  rfl

theorem fed_andThen {next : σ → Asked (Place (RbtData V)) ℤ σ} (h : r.refused = none) :
    s.fed (r.andThen next) = (s.fed r).fed (next r.user) := by
  rw [Asked.andThen_of_none h, Walk.fed, List.map_append, ← List.append_assoc]
  rfl

theorem fed_rename (f : Frame (RbtData V)) : s.fed (r.rename (Place.below f)) = s.fed r := by
  rw [Walk.fed, Asked.rename, List.map_map]
  rfl

theorem fed_nil : s.fed ⟨[], s.user, none⟩ = s := by
  rw [Walk.fed, List.map_nil, List.append_nil]

theorem answers_append {ps qs : List (Place (RbtData V))} :
    answers cb sorted user (ps ++ qs) =
      (answers cb sorted user ps).andThen fun user => answers cb sorted user qs :=
  askPlaces_append

theorem refused_answers_append {ps qs : List (Place (RbtData V))} :
    (answers cb sorted user (ps ++ qs)).refused = none ↔
      (answers cb sorted user ps).refused = none ∧
        (answers cb sorted (answers cb sorted user ps).user qs).refused = none := by
  rw [answers_append]
  exact Asked.refused_andThen_eq_none

theorem answers_below {ps : List (Place (RbtData V))} (f : Frame (RbtData V)) :
    answers cb sorted user (ps.map (Place.below f)) =
      (answers cb sorted user ps).rename (Place.below f) :=
  askPlaces_below (fun _ _ _ => rfl) f

theorem answers_single {p : Place (RbtData V)}
    (h : (answers cb sorted user [p]).refused = none) :
    GoesOn sorted p (cb user p.data.entry).2 ∧ answers cb sorted user [p] =
      ⟨[(p, (cb user p.data.entry).2)], (cb user p.data.entry).1, none⟩ := by
  have hgo := refused_single_eq_none.mp h
  exact ⟨of_decide_eq_true hgo, askPlaces_single_of_goes hgo⟩

theorem answers_single_of_refused {p : Place (RbtData V)}
    (h : ¬ GoesOn sorted p (cb user p.data.entry).2) : answers cb sorted user [p] =
      ⟨[(p, (cb user p.data.entry).2)], (cb user p.data.entry).1,
        some (p, (cb user p.data.entry).2)⟩ :=
  askPlaces_single_of_refused fun hgo => h (of_decide_eq_true hgo)

theorem length_answers {t : PTree (RbtData V)}
    (h : (answers cb sorted user (places sorted t)).refused = none) :
    (answers cb sorted user (places sorted t)).made.length = t.size :=
  (length_made_of_none h).trans (length_places t)

/-! ## Counts that may be too large -/

/-- The code goes on as another piece of code, unless a count of at most `n` is too large. -/
def Leads (run run' : Option (Walk V σ × ℤ)) (n : ℕ) : Prop :=
  run = run' ∨ run = none ∧ 2 ^ 31 ≤ n

section Leads

variable {run run' run'' : Option (Walk V σ × ℤ)} {m n : ℕ}

theorem Leads.refl (run : Option (Walk V σ × ℤ)) (n : ℕ) : Leads run run n := Or.inl rfl

theorem Leads.mono (h : Leads run run' m) (hle : m ≤ n) : Leads run run' n :=
  h.imp_right fun hnone => ⟨hnone.1, hnone.2.trans hle⟩

theorem Leads.trans (h : Leads run run' n) (h' : Leads run' run'' n) : Leads run run'' n := by
  rcases h with rfl | hnone
  · exact h'
  · exact Or.inr hnone

end Leads

/-- The walk of a subtree asks about all of its nodes and counts `n`. -/
structure Passes (walk : Walk V σ → Option Addr → Option (Walk V σ × ℤ)) (s : Walk V σ)
    (t : PTree (RbtData V)) (r : Asked (Place (RbtData V)) ℤ σ) (n : ℕ) : Prop where
  counts : n + skipped r.made = t.size
  pos : t ≠ .leaf → 1 ≤ n
  leads : Leads (walk s t.addr) (some (s.fed r, n)) t.size

variable {walk : Walk V σ → Option Addr → Option (Walk V σ × ℤ)}
  {next : Walk V σ → ℤ → Option (Walk V σ × ℤ)} {t l u : PTree (RbtData V)} {n rc : ℕ}
  {a : Addr} {d : RbtData V}

theorem addCount_leads (rc n : ℕ) :
    addCount rc n = some ((rc + n : ℕ) : ℤ) ∨ addCount rc n = none ∧ 2 ^ 31 ≤ rc + n := by
  unfold addCount
  by_cases h : (rc : ℤ) + n < 2 ^ 31
  · rw [if_pos h]
    exact Or.inl rfl
  · rw [if_neg h]
    refine Or.inr ⟨rfl, ?_⟩
    omega

theorem addCount_one_leads (hn : n = rc + 1) :
    addCount rc 1 = some (n : ℤ) ∨ addCount rc 1 = none ∧ 2 ^ 31 ≤ n := by
  have hcast : (rc : ℤ) + 1 = n := by omega
  rw [addCount, hcast]
  by_cases h : (n : ℤ) < 2 ^ 31
  · exact Or.inl (if_pos h)
  · refine Or.inr ⟨if_neg h, ?_⟩
    omega

theorem walkChild_counted {S : Walk V σ} {m : ℕ} (rc : ℕ) (ht : t ≠ .leaf) (hpos : 1 ≤ n)
    (h : Leads (walk s t.addr) (some (S, n)) m) :
    Leads (walkChild walk s t.addr rc next) (next S (rc + n : ℕ)) (max m (rc + n)) := by
  obtain ⟨b, hb⟩ := Option.ne_none_iff_exists'.mp fun haddr => ht (addr_eq_none haddr)
  have hzero : (n : ℤ) ≠ 0 := by omega
  rw [walkChild, hb, if_pos Option.isSome_some, ← hb]
  rcases h with hrun | ⟨hnone, hlarge⟩
  · rw [hrun]
    simp only [Option.bind_eq_bind, Option.bind_some, afterChild, if_neg hzero]
    rcases addCount_leads rc n with hadd | ⟨hadd, hlarge⟩
    · rw [hadd]
      exact Leads.refl _ _
    · rw [hadd]
      exact Or.inr ⟨rfl, hlarge.trans (le_max_right _ _)⟩
  · rw [hnone]
    exact Or.inr ⟨rfl, hlarge.trans (le_max_left _ _)⟩

theorem walkChild_zero {S : Walk V σ} {m rc : ℕ} (hn : n = rc + 1) (ht : t ≠ .leaf)
    (h : Leads (walk s t.addr) (some (S, 0)) m) :
    Leads (walkChild walk s t.addr rc next) (some (S, n)) (max m n) := by
  obtain ⟨b, hb⟩ := Option.ne_none_iff_exists'.mp fun haddr => ht (addr_eq_none haddr)
  rw [walkChild, hb, if_pos Option.isSome_some, ← hb]
  rcases h with hrun | ⟨hnone, hlarge⟩
  · have hafter : afterChild rc (S, 0) next = (addCount rc 1).bind fun n => some (S, n) :=
      if_pos rfl
    rw [hrun, Option.bind_eq_bind, Option.bind_some, hafter]
    rcases addCount_one_leads hn with hadd | ⟨hadd, hlarge⟩
    · rw [hadd, Option.bind_some]
      exact Leads.refl _ _
    · rw [hadd, Option.bind_none]
      exact Or.inr ⟨rfl, hlarge.trans (le_max_right _ _)⟩
  · rw [hnone]
    exact Or.inr ⟨rfl, hlarge.trans (le_max_left _ _)⟩

theorem walkChild_passed (rc : ℕ) (h : Passes walk s t r n) (hleaf : t = .leaf → s.fed r = s) :
    Leads (walkChild walk s t.addr rc next) (next (s.fed r) (rc + n : ℕ)) (rc + t.size) := by
  have hle : n ≤ t.size := h.counts ▸ Nat.le_add_right _ _
  by_cases ht : t = .leaf
  · obtain rfl : n = 0 := by
      rw [ht] at hle
      exact Nat.le_zero.mp hle
    rw [hleaf ht, ht]
    exact Leads.refl _ _
  · exact (walkChild_counted rc ht (h.pos ht) h.leads).mono (by omega)

/-! ## The steps of the code -/

section Steps

variable {root : Option Addr} {fs : List (Frame (RbtData V))}
  {rest : Multiset (Addr × RbtNode V)}

theorem callback_eq (cb : σ → List UInt8 × ℕ × Option V → σ × ℤ)
    (h : Placed s.tree.nodes root (.node l a d u) fs rest) :
    callback cb s a = some ({ s with
      user := (cb s.user d.entry).1
      calls := s.calls ++ [(d.entry, (cb s.user d.entry).2)] }, (cb s.user d.entry).2) := by
  have hnode := h.node_eq (s := .left)
  simp [callback, hnode]

theorem walkNode_eq (fuel : ℕ) (h : Placed s.tree.nodes root (.node l a d u) fs rest) :
    rbtWalkInternal cmp mem cb sorted (fuel + 1) s (some a) =
      walkChild (rbtWalkInternal cmp mem cb sorted fuel) s (if sorted then l.addr else none) 1
        (visit cmp mem cb sorted (rbtWalkInternal cmp mem cb sorted fuel) a) := by
  have hnode := h.node_eq (s := .left)
  simp only [rbtWalkInternal, hnode, link, Option.bind_eq_bind, Option.bind_some]

/-- What is done after the walk of the child on a side. -/
def goOn (cmp : List UInt8 → List UInt8 → ℤ) (mem : Bool)
    (cb : σ → List UInt8 × ℕ × Option V → σ × ℤ) (sorted : Bool)
    (walk : Walk V σ → Option Addr → Option (Walk V σ × ℤ)) (side : Side) (a : Addr)
    (s : Walk V σ) (rc : ℤ) : Option (Walk V σ × ℤ) :=
  match sorted, side with
  | true, .left => visit cmp mem cb true walk a s rc
  | false, .left => do
      let n ← s.tree.nodes a
      walkChild walk s n.right rc fun s rc => some (s, rc)
  | _, .right => some (s, rc)

/-- The children that are walked after the callback. -/
theorem walkRest_eq (cmp : List UInt8 → List UInt8 → ℤ) (mem : Bool)
    (cb : σ → List UInt8 × ℕ × Option V → σ × ℤ) {rc : ℤ}
    (h : Placed s.tree.nodes root (.node l a d u) fs rest) :
    walkRest sorted walk a s rc =
      if sorted then walkChild walk s u.addr rc (goOn cmp mem cb true walk .right a)
      else walkChild walk s l.addr rc (goOn cmp mem cb false walk .left a) := by
  have hnode := h.node_eq (s := .left)
  cases sorted with
  | false =>
      simp only [walkRest, hnode, link, Option.bind_eq_bind, Option.bind_some,
        Bool.false_eq_true, if_false]
      rfl
  | true =>
      simp only [walkRest, hnode, link, Option.bind_eq_bind, Option.bind_some, if_true,
        walkChild, Option.isSome_none, Bool.false_eq_true, if_false]
      rfl

theorem goOn_left_eq {rc : ℤ} (h : Placed s.tree.nodes root (.node l a d u) fs rest) :
    goOn cmp mem cb false walk .left a s rc =
      walkChild walk s u.addr rc (goOn cmp mem cb false walk .right a) := by
  have hnode := h.node_eq (s := .left)
  simp only [goOn, hnode, link, Option.bind_eq_bind, Option.bind_some]
  rfl

/-- A visit after which the walk goes on. -/
theorem visit_goesOn (cmp : List UInt8 → List UInt8 → ℤ) (mem : Bool)
    (walk : Walk V σ → Option Addr → Option (Walk V σ × ℤ)) (rc : ℤ)
    (h : Placed s.tree.nodes root (.node l a d u) fs rest)
    (hgo : (answers cb sorted s.user [⟨l, a, d, u, []⟩]).refused = none) :
    visit cmp mem cb sorted walk a s rc =
      if (cb s.user d.entry).2 = -1 then
        if u.addr.isSome then walk (s.fed (answers cb sorted s.user [⟨l, a, d, u, []⟩])) u.addr
        else some (s.fed (answers cb sorted s.user [⟨l, a, d, u, []⟩]), 1)
      else walkRest sorted walk a (s.fed (answers cb sorted s.user [⟨l, a, d, u, []⟩])) rc := by
  obtain ⟨⟨hzero, htwo, hleaf⟩, heq⟩ := answers_single hgo
  have hcb := callback_eq cb h
  have hnode := h.node_eq (s := .left)
  have hfed : s.fed (answers cb sorted s.user [⟨l, a, d, u, []⟩]) = { s with
      user := (cb s.user d.entry).1
      calls := s.calls ++ [(d.entry, (cb s.user d.entry).2)] } := by
    rw [heq]
    rfl
  have htwo' : (cb s.user d.entry).2 ≠ -2 := htwo
  have hzero' : (cb s.user d.entry).2 ≠ 0 := hzero
  rw [hfed]
  simp only [visit, hcb, Option.bind_eq_bind, Option.bind_some, if_neg htwo', if_neg hzero']
  by_cases hcode : (cb s.user d.entry).2 = -1
  · have hl : l.addr = none := (hleaf hcode).1
    simp only [if_pos hcode, hnode, link, hl, Option.bind_some, Option.isSome_none,
      Bool.false_eq_true, false_and, false_or, if_false]
  · simp only [if_neg hcode]

end Steps

/-! ## Into a child -/

/-- The root of what was walked is to be removed, so that its walk is left to that of its
child, if there is one. -/
def RootRemoved (made : List (Place (RbtData V) × ℤ)) : Prop :=
  ∃ c ∈ made, c.1.above = [] ∧ c.2 = -1

/-- Whether the callback has been called for a node before its child on a side is walked. -/
def called (sorted : Bool) (side : Side) : ℕ := if sorted = true ∧ side = .left then 0 else 1

theorem rootRemoved_append {as bs : List (Place (RbtData V) × ℤ)} :
    RootRemoved (as ++ bs) ↔ RootRemoved as ∨ RootRemoved bs := by
  constructor
  · rintro ⟨c, hc, h⟩
    exact (List.mem_append.mp hc).imp (fun hmem => ⟨c, hmem, h⟩) fun hmem => ⟨c, hmem, h⟩
  · rintro (⟨c, hc, h⟩ | ⟨c, hc, h⟩)
    · exact ⟨c, List.mem_append_left _ hc, h⟩
    · exact ⟨c, List.mem_append_right _ hc, h⟩

theorem not_rootRemoved_rename (f : Frame (RbtData V)) :
    ¬ RootRemoved (r.rename (Place.below f)).made := by
  rintro ⟨c, hc, habove, -⟩
  obtain ⟨c', -, rfl⟩ := List.mem_map.mp hc
  exact List.cons_ne_nil _ _ (List.append_eq_nil_iff.mp habove).2

theorem rootRemoved_single {p : Place (RbtData V)} {code : ℤ} (hp : p.above = []) :
    RootRemoved [(p, code)] ↔ code = -1 := by
  constructor
  · rintro ⟨c, hc, -, hcode⟩
    cases List.mem_singleton.mp hc
    exact hcode
  · exact fun hcode => ⟨_, List.mem_singleton_self _, hp, hcode⟩

theorem skipped_single {p : Place (RbtData V)} {code : ℤ} (h : code = -1 → p.right.addr = none) :
    skipped [(p, code)] = 0 := by
  refine List.countP_eq_zero.mpr fun c hc => ?_
  cases List.mem_singleton.mp hc
  exact fun hskip => (of_decide_eq_true hskip).2 (h (of_decide_eq_true hskip).1)

/-- The walk of a node goes into the walk of its child on a side, after all that comes before
it has been passed. -/
inductive Into (cmp : List UInt8 → List UInt8 → ℤ) (mem : Bool)
    (cb : σ → List UInt8 × ℕ × Option V → σ × ℤ) (sorted : Bool)
    (walk : Walk V σ → Option Addr → Option (Walk V σ × ℤ)) (side : Side) (a : Addr)
    (t u : PTree (RbtData V)) (s : Walk V σ) (pre : Asked (Place (RbtData V)) ℤ σ)
    (run : Option (Walk V σ × ℤ)) : Prop where
  | left (ht : t ≠ .leaf) (hu : u = .leaf) (hpre : RootRemoved pre.made)
      (hskipped : skipped pre.made = 1) (hlength : pre.made.length = 1)
      (hrun : Leads run (walk (s.fed pre) t.addr) pre.made.length)
  | counted (rc : ℕ) (hpre : t ≠ .leaf → ¬ RootRemoved pre.made) (hpos : 1 ≤ rc)
      (hcount : rc + skipped pre.made + called sorted side = pre.made.length + 1)
      (hrun : Leads run (walkChild walk (s.fed pre) t.addr rc
        (goOn cmp mem cb sorted walk side a)) pre.made.length)

section Into

variable {root : Option Addr} {fs : List (Frame (RbtData V))}
  {rest : Multiset (Addr × RbtNode V)} {fuel : ℕ} {pre : Asked (Place (RbtData V)) ℤ σ}

/-- A walk in order goes into the left child first. -/
theorem into_sorted_left (h : Placed s.tree.nodes root (.node l a d u) fs rest) :
    Into cmp mem cb true (rbtWalkInternal cmp mem cb true fuel) .left a l u s ⟨[], s.user, none⟩
      (rbtWalkInternal cmp mem cb true (fuel + 1) s (some a)) := by
  refine .counted 1 (fun _ hroot => ?_) (le_refl _) rfl ?_
  · obtain ⟨c, hc, -⟩ := hroot
    cases hc
  · rw [walkNode_eq fuel h, fed_nil]
    exact Leads.refl _ _

/-- A walk in preorder goes into the left child after the callback. -/
theorem into_unsorted_left (h : Placed s.tree.nodes root (.node l a d u) fs rest)
    (hl : l ≠ .leaf) (hpre : answers cb false s.user [⟨l, a, d, u, []⟩] = pre)
    (hpass : pre.refused = none) :
    Into cmp mem cb false (rbtWalkInternal cmp mem cb false fuel) .left a l u s pre
      (rbtWalkInternal cmp mem cb false (fuel + 1) s (some a)) := by
  subst hpre
  obtain ⟨hgo, heq⟩ := answers_single hpass
  have hcode : (cb s.user d.entry).2 ≠ -1 := fun hcode => hl (addr_eq_none (hgo.2.2 hcode).1)
  have hvisit := visit_goesOn cmp mem (rbtWalkInternal cmp mem cb false fuel) 1 h hpass
  rw [if_neg hcode, walkRest_eq cmp mem cb
    (s := s.fed (answers cb false s.user [⟨l, a, d, u, []⟩])) h] at hvisit
  refine .counted 1 (fun _ hroot => ?_) (le_refl _) ?_ ?_
  · rw [heq] at hroot
    exact hcode ((rootRemoved_single rfl).mp hroot)
  · rw [heq, skipped_single fun hc => absurd hc hcode]
    rfl
  · rw [walkNode_eq fuel h]
    exact Or.inl hvisit

theorem fed_answers_leaf (hl : l = .leaf) :
    s.fed (answers cb sorted s.user (places sorted l)) = s := by
  subst hl
  exact fed_nil

/-- The walk of a node comes to the visit, in order after that of the left child. -/
theorem walk_to_visit (cmp : List UInt8 → List UInt8 → ℤ) (mem : Bool)
    (h : Placed s.tree.nodes root (.node l a d u) fs rest)
    (hsib : (answers cb sorted s.user (places sorted l)).refused = none →
      ∃ n, Passes (rbtWalkInternal cmp mem cb sorted fuel) s l
        (answers cb sorted s.user (places sorted l)) n)
    (hpre : answers cb sorted s.user
      (if sorted then (places true l).map (Place.below ⟨.left, a, d, u⟩) else []) = pre)
    (hpass : pre.refused = none) :
    ∃ rc : ℕ, 1 ≤ rc ∧ rc + skipped pre.made = pre.made.length + 1 ∧
      pre.made.length = (if sorted then l.size else 0) ∧
      (skipped pre.made + 1 ≤ pre.made.length ∨ skipped pre.made = 0) ∧
      Leads (rbtWalkInternal cmp mem cb sorted (fuel + 1) s (some a))
        (visit cmp mem cb sorted (rbtWalkInternal cmp mem cb sorted fuel) a (s.fed pre) rc)
        (pre.made.length + 1) := by
  rw [walkNode_eq fuel h]
  cases sorted with
  | false =>
      rw [if_neg Bool.false_ne_true] at hpre ⊢
      subst hpre
      refine ⟨1, le_refl _, rfl, rfl, Or.inr rfl, ?_⟩
      rw [show s.fed (answers cb false s.user []) = s from fed_nil]
      exact Leads.refl _ _
  | true =>
      rw [if_pos rfl, answers_below] at hpre
      obtain ⟨A, hA⟩ : ∃ A, answers cb true s.user (places true l) = A := ⟨_, rfl⟩
      have hleaf : l = .leaf → s.fed A = s := fun hl => hA ▸ fed_answers_leaf hl
      rw [← hpre, Asked.refused_rename_eq_none] at hpass
      have hsize := length_answers hpass
      obtain ⟨n, hn⟩ := hsib hpass
      rw [hA] at hpre hn hsize
      have hcounts := hn.counts
      have hlength : pre.made.length = l.size := by
        rw [← hpre, Asked.rename, List.length_map, hsize]
      have hskipped : skipped pre.made = skipped A.made := by
        rw [← hpre, skipped_rename]
      have hfed : s.fed pre = s.fed A := by
        rw [← hpre, fed_rename]
      have hfew : skipped pre.made + 1 ≤ pre.made.length ∨ skipped pre.made = 0 := by
        by_cases hl : l = .leaf
        · have hzero : l.size = 0 := hl ▸ rfl
          omega
        · have hpos := hn.pos hl
          omega
      refine ⟨1 + n, Nat.le_add_right _ _, by omega, hlength, hfew, ?_⟩
      rw [hfed, if_pos rfl]
      exact (walkChild_passed 1 hn hleaf).mono (by omega)

/-- A walk in order goes into the right child after the left one and the callback. -/
theorem into_sorted_right (h : Placed s.tree.nodes root (.node l a d u) fs rest)
    (hsib : (answers cb true s.user (places true l)).refused = none →
      ∃ n, Passes (rbtWalkInternal cmp mem cb true fuel) s l
        (answers cb true s.user (places true l)) n)
    (hpre : answers cb true s.user (earlier true .right u l a d) = pre)
    (hpass : pre.refused = none) :
    Into cmp mem cb true (rbtWalkInternal cmp mem cb true fuel) .right a u l s pre
      (rbtWalkInternal cmp mem cb true (fuel + 1) s (some a)) := by
  obtain ⟨A, hA⟩ : ∃ A, answers cb true s.user
      ((places true l).map (Place.below ⟨.left, a, d, u⟩)) = A := ⟨_, rfl⟩
  have hsplit : pre = A.andThen fun user => answers cb true user [⟨l, a, d, u, []⟩] := by
    rw [← hpre, ← hA]
    exact answers_append
  rw [hsplit] at hpass
  obtain ⟨hpassA, hhere⟩ := Asked.refused_andThen_eq_none.mp hpass
  obtain ⟨hgo, hsingle⟩ := answers_single hhere
  obtain ⟨rc, hpos, hcount, hlengthA, -, hrun⟩ := walk_to_visit cmp mem h hsib hA hpassA
  have hfed : s.fed pre = (s.fed A).fed (answers cb true (s.fed A).user [⟨l, a, d, u, []⟩]) := by
    rw [hsplit, fed_andThen hpassA]
    rfl
  have hmade : pre.made = A.made ++ [(⟨l, a, d, u, []⟩, (cb A.user d.entry).2)] := by
    rw [hsplit, Asked.andThen_of_none hpassA]
    exact congrArg (fun r => _ ++ Asked.made r) hsingle
  have hlength : pre.made.length = A.made.length + 1 := by
    rw [hmade, List.length_append, List.length_singleton]
  have hskipped : skipped pre.made =
      skipped A.made + skipped [(⟨l, a, d, u, []⟩, (cb A.user d.entry).2)] := by
    rw [hmade, skipped_append]
  have hone : called true .right = 1 := rfl
  rw [visit_goesOn cmp mem _ rc (s := s.fed A) h hhere, ← hfed, ← hlength] at hrun
  by_cases hcode : (cb A.user d.entry).2 = -1
  · obtain rfl := addr_eq_none (hgo.2.2 hcode).1
    have hlengthA' : A.made.length = 0 := hlengthA
    have hroot : RootRemoved pre.made := by
      rw [hmade]
      exact rootRemoved_append.mpr (Or.inr ((rootRemoved_single rfl).mpr hcode))
    rw [if_pos (show (cb (s.fed A).user d.entry).2 = -1 from hcode)] at hrun
    cases hu : u.addr with
    | none =>
        rw [hu, if_neg (by decide)] at hrun
        rw [skipped_single fun _ => hu] at hskipped
        refine .counted 1 (fun hne => absurd (addr_eq_none hu) hne) (le_refl _) (by omega) ?_
        rw [hu]
        exact hrun
    | some b =>
        rw [hu, if_pos Option.isSome_some] at hrun
        have hskip : skipped [(⟨.leaf, a, d, u, []⟩, (cb A.user d.entry).2)] = 1 := by
          have hne : u.addr ≠ none := hu ▸ Option.some_ne_none b
          rw [skipped, List.countP_singleton]
          exact if_pos (decide_eq_true ⟨hcode, hne⟩)
        refine .left (fun heq => ?_) rfl hroot (by omega) (by omega) (hu ▸ hrun)
        rw [heq] at hu
        cases hu
  · rw [if_neg (show (cb (s.fed A).user d.entry).2 ≠ -1 from hcode),
      walkRest_eq cmp mem cb (s := s.fed pre) h] at hrun
    rw [skipped_single fun hc => absurd hc hcode] at hskipped
    refine .counted rc (fun _ hroot => ?_) hpos (by omega) hrun
    rw [hmade, ← hA, answers_below] at hroot
    rcases rootRemoved_append.mp hroot with hleft | hright
    · exact not_rootRemoved_rename _ hleft
    · rw [← answers_below, hA] at hright
      exact hcode ((rootRemoved_single rfl).mp hright)

/-- A walk in preorder goes into the right child after the callback and the left child. -/
theorem into_unsorted_right (h : Placed s.tree.nodes root (.node l a d u) fs rest)
    (hhere : (answers cb false s.user [⟨l, a, d, u, []⟩]).refused = none)
    (hsib : ∀ s', s'.tree = s.tree →
      (answers cb false s'.user (places false l)).refused = none →
      ∃ n, Passes (rbtWalkInternal cmp mem cb false fuel) s' l
        (answers cb false s'.user (places false l)) n)
    (hpre : answers cb false s.user (earlier false .right u l a d) = pre)
    (hpass : pre.refused = none) :
    Into cmp mem cb false (rbtWalkInternal cmp mem cb false fuel) .right a u l s pre
      (rbtWalkInternal cmp mem cb false (fuel + 1) s (some a)) := by
  obtain ⟨B, hB⟩ : ∃ B, answers cb false s.user [⟨l, a, d, u, []⟩] = B := ⟨_, rfl⟩
  obtain ⟨hgo, hsingle⟩ := answers_single hhere
  have hvisit := visit_goesOn cmp mem (rbtWalkInternal cmp mem cb false fuel) 1 h hhere
  rw [hB] at hhere hvisit hsingle
  have hsplit : pre = B.andThen fun user => (answers cb false user (places false l)).rename
      (Place.below ⟨.left, a, d, u⟩) := by
    rw [← hpre, ← hB]
    exact answers_append.trans (congrArg _ (funext fun _ => answers_below _))
  have hpassA : (answers cb false B.user (places false l)).refused = none := by
    rw [hsplit, Asked.refused_andThen_eq_none] at hpass
    exact Asked.refused_rename_eq_none.mp hpass.2
  obtain ⟨n, hsib⟩ := hsib (s.fed B) rfl hpassA
  have hsize := length_answers hpassA
  obtain ⟨A, hA⟩ : ∃ A, answers cb false B.user (places false l) = A := ⟨_, rfl⟩
  have hsib' : Passes (rbtWalkInternal cmp mem cb false fuel) (s.fed B) l A n := hA ▸ hsib
  have hleaf : l = .leaf → (s.fed B).fed A = s.fed B := fun hl =>
    hA ▸ fed_answers_leaf (s := s.fed B) hl
  have hcounts := hsib'.counts
  rw [hA] at hsize
  have hmade : pre.made = [(⟨l, a, d, u, []⟩, (cb s.user d.entry).2)] ++
      (A.rename (Place.below ⟨.left, a, d, u⟩)).made := by
    rw [hsplit, Asked.andThen_of_none hhere, hA, hsingle]
  have hfed : s.fed pre = (s.fed B).fed A := by
    rw [hsplit, fed_andThen hhere, fed_rename, hA]
  have hlength : pre.made.length = 1 + l.size := by
    rw [hmade, List.length_append, List.length_singleton, Asked.rename, List.length_map, hsize]
  have hskipped : skipped pre.made =
      skipped [(⟨l, a, d, u, []⟩, (cb s.user d.entry).2)] + skipped A.made := by
    rw [hmade, skipped_append, skipped_rename]
  have hrun : rbtWalkInternal cmp mem cb false (fuel + 1) s (some a) =
      visit cmp mem cb false (rbtWalkInternal cmp mem cb false fuel) a s 1 := walkNode_eq fuel h
  rw [hvisit] at hrun
  by_cases hcode : (cb s.user d.entry).2 = -1
  · obtain ⟨hl, hu⟩ := hgo.2.2 hcode
    obtain rfl := addr_eq_none hl
    have hsizel : (PTree.leaf : PTree (RbtData V)).size = 0 := rfl
    have hu' : u.addr = none := hu rfl
    rw [if_pos hcode, hu', if_neg (by decide)] at hrun
    rw [skipped_single fun _ => hu'] at hskipped
    refine .counted 1 (fun hne => absurd (addr_eq_none hu') hne) (le_refl _) ?_ ?_
    · rw [hlength, hskipped]
      have hone : called false .right = 1 := rfl
      omega
    · rw [hu', hfed, hleaf rfl]
      exact Or.inl hrun
  · rw [if_neg hcode, walkRest_eq cmp mem cb (s := s.fed B) h] at hrun
    rw [skipped_single fun hc => absurd hc hcode] at hskipped
    refine .counted (1 + n) (fun _ hroot => ?_) (Nat.le_add_right _ _) ?_ ?_
    · rw [hmade] at hroot
      rcases rootRemoved_append.mp hroot with hleft | hright
      · exact hcode ((rootRemoved_single rfl).mp hleft)
      · exact not_rootRemoved_rename _ hright
    · rw [hlength, hskipped]
      have hone : called false .right = 1 := rfl
      omega
    · rw [hrun, hfed, ← goOn_left_eq (s := (s.fed B).fed A) h]
      exact (walkChild_passed 1 hsib' hleaf).mono (by omega)

/-- The walk of a node goes into that of a child. -/
theorem walk_into (cmp : List UInt8 → List UInt8 → ℤ) (mem : Bool) (side : Side)
    (h : Placed s.tree.nodes root (join side t u a d) fs rest)
    (hsib : ∀ s', s'.tree = s.tree →
      (answers cb sorted s'.user (places sorted u)).refused = none →
      ∃ n, Passes (rbtWalkInternal cmp mem cb sorted fuel) s' u
        (answers cb sorted s'.user (places sorted u)) n)
    (hpre : answers cb sorted s.user (earlier sorted side t u a d) = pre)
    (hpass : pre.refused = none) (ht : side = .left → t ≠ .leaf) :
    Into cmp mem cb sorted (rbtWalkInternal cmp mem cb sorted fuel) side a t u s pre
      (rbtWalkInternal cmp mem cb sorted (fuel + 1) s (some a)) := by
  cases side with
  | left =>
      cases sorted with
      | true => exact hpre ▸ into_sorted_left h
      | false => exact into_unsorted_left h (ht rfl) hpre hpass
  | right =>
      have hparts := hpass
      rw [← hpre] at hparts
      cases sorted with
      | true => exact into_sorted_right h (hsib s rfl) hpre hpass
      | false =>
          have hhere := (refused_answers_append.mp hparts).1
          exact into_unsorted_right h hhere hsib hpre hpass

theorem length_earlier_right (sorted : Bool) (l u : PTree (RbtData V)) (a : Addr)
    (d : RbtData V) : (earlier sorted .right u l a d).length = l.size + 1 := by
  cases sorted
  · simp [earlier, length_places, Nat.add_comm]
  · simp [earlier, length_places]

/-- A walk that is not interrupted asks about all nodes, leaves the tree as it is, and counts
what was not skipped. -/
theorem walk_passes : ∀ (t : PTree (RbtData V)) (fuel : ℕ) (s : Walk V σ)
    (fs : List (Frame (RbtData V))), t.height ≤ fuel → Placed s.tree.nodes root t fs rest →
    (answers cb sorted s.user (places sorted t)).refused = none →
    ∃ n, Passes (rbtWalkInternal cmp mem cb sorted fuel) s t
      (answers cb sorted s.user (places sorted t)) n := by
  intro t
  induction t with
  | leaf =>
      intro fuel s fs _ _ _
      refine ⟨0, rfl, fun hne => absurd rfl hne, Or.inl ?_⟩
      rw [fed_answers_leaf rfl]
      cases fuel <;> rfl
  | node l a d u ihl ihu =>
      intro fuel s fs hfuel h hpass
      obtain ⟨fuel, rfl⟩ := Nat.exists_eq_succ_of_ne_zero
        (Nat.ne_of_gt ((Nat.succ_pos _).trans_le hfuel))
      rw [PTree.height] at hfuel
      obtain ⟨pre, hpre⟩ : ∃ pre, answers cb sorted s.user (earlier sorted .right u l a d) = pre :=
        ⟨_, rfl⟩
      rw [places_node, answers_append, hpre] at hpass ⊢
      obtain ⟨hearlier, hright⟩ := Asked.refused_andThen_eq_none.mp hpass
      rw [answers_below, Asked.refused_rename_eq_none] at hright
      have hsib : ∀ s', s'.tree = s.tree →
          (answers cb sorted s'.user (places sorted l)).refused = none →
          ∃ n, Passes (rbtWalkInternal cmp mem cb sorted fuel) s' l
            (answers cb sorted s'.user (places sorted l)) n := by
        intro s' hs' hpass'
        refine ihl fuel s' (⟨.left, a, d, u⟩ :: fs) (by omega) ?_ hpass'
        rw [hs']
        exact placed_cons.mpr h
      have hinto := walk_into cmp mem .right h hsib hpre hearlier
        fun hside => by cases hside
      obtain ⟨n, hn⟩ := ihu fuel (s.fed pre) (⟨.right, a, d, l⟩ :: fs) (by omega)
        (placed_cons.mpr h) hright
      obtain ⟨A, hA⟩ : ∃ A, answers cb sorted pre.user (places sorted u) = A := ⟨_, rfl⟩
      have hn' : Passes (rbtWalkInternal cmp mem cb sorted fuel) (s.fed pre) u A n := hA ▸ hn
      have hleaf : u = .leaf → (s.fed pre).fed A = s.fed pre := fun hu =>
        hA ▸ fed_answers_leaf (s := s.fed pre) hu
      have hlength : pre.made.length = l.size + 1 := by
        rw [← length_earlier_right sorted l u a d, ← hpre]
        exact length_made_of_none (congrArg Asked.refused hpre |>.trans hearlier)
      have hcounts := hn'.counts
      have hskipped : skipped (pre.andThen fun user => answers cb sorted user
          ((places sorted u).map (Place.below ⟨.right, a, d, l⟩))).made =
          skipped pre.made + skipped A.made := by
        rw [Asked.andThen_of_none hearlier, skipped_append, answers_below, skipped_rename, hA]
      have hfed : s.fed (pre.andThen fun user => answers cb sorted user
          ((places sorted u).map (Place.below ⟨.right, a, d, l⟩))) = (s.fed pre).fed A := by
        rw [fed_andThen hearlier, answers_below, fed_rename, hA]
      cases hinto with
      | left hne _ hroot hone hlen hrun =>
          refine ⟨n, ?_, fun _ => hn'.pos hne, ?_⟩
          · rw [hskipped, PTree.size]
            omega
          · rw [hfed, PTree.size]
            exact (hrun.mono (by omega)).trans (hn'.leads.mono (by omega))
      | counted rc hroot hpos hcount hrun =>
          have hone : called sorted .right = 1 := by
            cases sorted <;> rfl
          refine ⟨rc + n, ?_, fun _ => hpos.trans (Nat.le_add_right _ _), ?_⟩
          · rw [hskipped, PTree.size]
            omega
          · rw [hfed, PTree.size]
            have hlast : goOn cmp mem cb sorted (rbtWalkInternal cmp mem cb sorted fuel) .right a
                ((s.fed pre).fed A) (rc + n : ℕ) =
                  some ((s.fed pre).fed A, ((rc + n : ℕ) : ℤ)) := by
              cases sorted <;> rfl
            rw [← hlast]
            exact (hrun.mono (by omega)).trans ((walkChild_passed rc hn' hleaf).mono (by omega))

/-- The other child, too, is passed if nothing interrupts its walk. -/
theorem sibling_passes (cmp : List UInt8 → List UInt8 → ℤ) (mem : Bool)
    (cb : σ → List UInt8 × ℕ × Option V → σ × ℤ) (sorted : Bool) {side : Side}
    (h : Placed s.tree.nodes root (join side t u a d) fs rest)
    (hfuel : (join side t u a d).height ≤ fuel + 1) :
    ∀ s' : Walk V σ, s'.tree = s.tree →
      (answers cb sorted s'.user (places sorted u)).refused = none →
      ∃ n, Passes (rbtWalkInternal cmp mem cb sorted fuel) s' u
        (answers cb sorted s'.user (places sorted u)) n := by
  intro s' hs'
  rw [height_join] at hfuel
  have hplaced : Placed s'.tree.nodes root u (⟨side.other, a, d, t⟩ :: fs) rest := by
    rw [hs']
    exact placed_sibling.mp ((placed_cons (f := ⟨side, a, d, u⟩)).mpr h)
  exact walk_passes u fuel s' _ (by omega) hplaced

end Into

end RbTree
end LibHL
