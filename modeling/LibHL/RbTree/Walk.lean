import LibHL.RbTree.Model

/-!
# Walking a tree

A walk calls the callback for the nodes, and the answer may ask it to stop, to remove the
node, or both.  What a recursive walk returns is both the number of calls and, if it is
zero, the request to stop.  The callback has a state of its own and does not change the
tree.  A count that does not fit in an `int` gives no result, as a dangling pointer does.
-/

namespace LibHL
namespace RbTree

variable {V σ : Type}

/-! ## The code -/

/-- A walk: the tree, the callback's own state, and a record of its calls. -/
structure Walk (V σ : Type) where
  tree : Rbt V
  user : σ
  calls : List ((List UInt8 × ℕ × Option V) × ℤ)

/-- Add to the count of a walk. -/
def addCount (rc n : ℤ) : Option ℤ := if rc + n < 2 ^ 31 then some (rc + n) else none

/-- A walk of a child that returned zero ends the walk of the parent; else its count is
added. -/
def afterChild (rc : ℤ) (r : Walk V σ × ℤ)
    (next : Walk V σ → ℤ → Option (Walk V σ × ℤ)) : Option (Walk V σ × ℤ) :=
  if r.2 = 0 then do
    let n ← addCount rc 1
    some (r.1, n)
  else do
    let n ← addCount rc r.2
    next r.1 n

/-- Walk a child, if there is one. -/
def walkChild (walk : Walk V σ → Option Addr → Option (Walk V σ × ℤ)) (s : Walk V σ)
    (child : Option Addr) (rc : ℤ) (next : Walk V σ → ℤ → Option (Walk V σ × ℤ)) :
    Option (Walk V σ × ℤ) :=
  if child.isSome then do
    let r ← walk s child
    afterChild rc r next
  else next s rc

section Code

variable (cmp : List UInt8 → List UInt8 → ℤ) (mem : Bool)
  (cb : σ → List UInt8 × ℕ × Option V → σ × ℤ) (sorted : Bool)

/-- `rbt_remove` of the visited node.  What it returns is ignored. -/
def removeVisited (s : Walk V σ) (node : Addr) : Option (Walk V σ) := do
  let n ← s.tree.nodes node
  let key ← n.data.bytes
  let r ← rbtRemove cmp mem s.tree key false
  some { s with tree := r.1 }

/-- The call of the callback, with its answer. -/
def callback (s : Walk V σ) (node : Addr) : Option (Walk V σ × ℤ) := do
  let n ← s.tree.nodes node
  let c := cb s.user n.data.entry
  some ({ s with
    user := c.1
    calls := s.calls ++ [(n.data.entry, c.2)] }, c.2)

/-- The children that are walked after the callback. -/
def walkRest (walk : Walk V σ → Option Addr → Option (Walk V σ × ℤ)) (node : Addr)
    (s : Walk V σ) (rc : ℤ) : Option (Walk V σ × ℤ) := do
  let n ← s.tree.nodes node
  walkChild walk s (if sorted then none else n.left) rc fun s rc => do
    let n ← s.tree.nodes node
    walkChild walk s n.right rc fun s rc => some (s, rc)

/-- The callback, and what its answer asks for.  A node that is to be removed is removed only
if it has two children, or if the walk stops there. -/
def visit (walk : Walk V σ → Option Addr → Option (Walk V σ × ℤ)) (node : Addr)
    (s : Walk V σ) (rc : ℤ) : Option (Walk V σ × ℤ) := do
  let (s, cbrc) ← callback cb s node
  if cbrc = -2 then do
    let s ← removeVisited cmp mem s node
    some (s, 0)
  else if cbrc = -1 then do
    let n ← s.tree.nodes node
    if n.left.isSome ∧ n.right.isSome then do
      let s ← removeVisited cmp mem s node
      walk s (some node)
    else if n.left.isSome ∨ n.right.isSome then
      walk s (if n.left.isSome then n.left else n.right)
    else some (s, 1)
  else if cbrc = 0 then some (s, 0)
  else walkRest sorted walk node s rc

/-- `rbt_walk_internal`. -/
def rbtWalkInternal : ℕ → Walk V σ → Option Addr → Option (Walk V σ × ℤ)
  | _, s, none => some (s, 0)
  | 0, _, some _ => none
  | fuel + 1, s, some node => do
      let n ← s.tree.nodes node
      walkChild (rbtWalkInternal fuel) s (if sorted then n.left else none) 1
        (visit cmp mem cb sorted (rbtWalkInternal fuel) node)

/-- `rbt_walk` and `rbt_walk_sorted`.  A walk goes at most as deep as there are nodes. -/
def walkTree (tree : Rbt V) (user : σ) : Option (Walk V σ × ℤ) :=
  rbtWalkInternal cmp mem cb sorted (tree.nodes.brk + 1) ⟨tree, user, []⟩ tree.root

/-- `rbt_walk`. -/
def rbtWalk (tree : Rbt V) (user : σ) : Option (Walk V σ × ℤ) :=
  walkTree cmp mem cb false tree user

/-- `rbt_walk_sorted`. -/
def rbtWalkSorted (tree : Rbt V) (user : σ) : Option (Walk V σ × ℤ) :=
  walkTree cmp mem cb true tree user

end Code

/-! ## What every walk does -/

theorem addCount_eq_some {rc n m : ℤ} (h : addCount rc n = some m) : m = rc + n ∧ m < 2 ^ 31 := by
  unfold addCount at h
  split at h
  case isTrue hlt =>
    cases h
    exact ⟨rfl, hlt⟩
  case isFalse => cases h

variable {cmp : List UInt8 → List UInt8 → ℤ} {mem : Bool}
  {cb : σ → List UInt8 × ℕ × Option V → σ × ℤ} {sorted : Bool}
  {walk : Walk V σ → Option Addr → Option (Walk V σ × ℤ)} {s s' : Walk V σ} {node : Addr}
  {child : Option Addr} {rc r : ℤ} {next : Walk V σ → ℤ → Option (Walk V σ × ℤ)}

theorem removeVisited_calls (h : removeVisited cmp mem s node = some s') :
    s'.calls = s.calls := by
  simp only [removeVisited, Option.bind_eq_bind, Option.bind_eq_some_iff] at h
  obtain ⟨n, -, key, -, res, -, heq⟩ := h
  cases heq
  rfl

theorem callback_calls {code : ℤ} (h : callback cb s node = some (s', code)) :
    ∃ e, s'.calls = s.calls ++ [(e, code)] := by
  simp only [callback, Option.bind_eq_bind, Option.bind_eq_some_iff] at h
  obtain ⟨n, -, heq⟩ := h
  cases heq
  exact ⟨_, rfl⟩

theorem walkChild_cases {t : Walk V σ} (h : walkChild walk s child rc next = some (t, r)) :
    (child = none ∧ next s rc = some (t, r)) ∨
      ∃ a s' rrc, child = some a ∧ walk s (some a) = some (s', rrc) ∧
        (rrc = 0 ∧ addCount rc 1 = some r ∧ t = s' ∨
          rrc ≠ 0 ∧ ∃ n, addCount rc rrc = some n ∧ next s' n = some (t, r)) := by
  cases child with
  | none => exact Or.inl ⟨rfl, h⟩
  | some a =>
      obtain ⟨⟨s', rrc⟩, hwalk, hrest⟩ := Option.bind_eq_some_iff.mp h
      refine Or.inr ⟨a, s', rrc, rfl, hwalk, ?_⟩
      by_cases hzero : rrc = 0
      · simp only [afterChild, if_pos hzero, Option.bind_eq_bind,
          Option.bind_eq_some_iff] at hrest
        obtain ⟨n, hn, heq⟩ := hrest
        cases heq
        exact Or.inl ⟨hzero, hn, rfl⟩
      · simp only [afterChild, if_neg hzero, Option.bind_eq_bind,
          Option.bind_eq_some_iff] at hrest
        exact Or.inr ⟨hzero, hrest⟩

/-- The ways in which a visit can end. -/
theorem visit_cases {t : Walk V σ} (h : visit cmp mem cb sorted walk node s rc = some (t, r)) :
    ∃ s₁ code, callback cb s node = some (s₁, code) ∧
      ((code = -2 ∧ removeVisited cmp mem s₁ node = some t ∧ r = 0) ∨
        (code = -1 ∧ ∃ s₂ a, s₂.calls = s₁.calls ∧ walk s₂ (some a) = some (t, r)) ∨
        (code = -1 ∧ (∃ n, s₁.tree.nodes node = some n ∧ ¬ (n.left.isSome ∨ n.right.isSome)) ∧
          t = s₁ ∧ r = 1) ∨
        (code = 0 ∧ t = s₁ ∧ r = 0) ∨
        (code ≠ 0 ∧ code ≠ -1 ∧ code ≠ -2 ∧ walkRest sorted walk node s₁ rc = some (t, r))) := by
  simp only [visit, Option.bind_eq_bind, Option.bind_eq_some_iff] at h
  obtain ⟨⟨s₁, code⟩, hcb, hrest⟩ := h
  refine ⟨s₁, code, hcb, ?_⟩
  by_cases hstop : code = -2
  · rw [if_pos hstop] at hrest
    obtain ⟨s₂, hremove, heq⟩ := Option.bind_eq_some_iff.mp hrest
    cases heq
    exact Or.inl ⟨hstop, hremove, rfl⟩
  rw [if_neg hstop] at hrest
  by_cases hagain : code = -1
  · rw [if_pos hagain] at hrest
    obtain ⟨n, hn, hchildren⟩ := Option.bind_eq_some_iff.mp hrest
    by_cases hboth : n.left.isSome ∧ n.right.isSome
    · rw [if_pos hboth] at hchildren
      obtain ⟨s₂, hremove, hwalk⟩ := Option.bind_eq_some_iff.mp hchildren
      exact Or.inr (Or.inl ⟨hagain, s₂, node, removeVisited_calls hremove, hwalk⟩)
    rw [if_neg hboth] at hchildren
    by_cases hone : n.left.isSome ∨ n.right.isSome
    · rw [if_pos hone] at hchildren
      obtain ⟨a, ha⟩ : ∃ a, (if n.left.isSome then n.left else n.right) = some a := by
        by_cases hleft : n.left.isSome
        · rw [if_pos hleft]
          exact Option.isSome_iff_exists.mp hleft
        · rw [if_neg hleft]
          exact Option.isSome_iff_exists.mp (hone.resolve_left hleft)
      rw [ha] at hchildren
      exact Or.inr (Or.inl ⟨hagain, s₁, a, rfl, hchildren⟩)
    · rw [if_neg hone] at hchildren
      cases hchildren
      exact Or.inr (Or.inr (Or.inl ⟨hagain, ⟨n, hn, hone⟩, rfl, rfl⟩))
  rw [if_neg hagain] at hrest
  by_cases hzero : code = 0
  · rw [if_pos hzero] at hrest
    cases hrest
    exact Or.inr (Or.inr (Or.inr (Or.inl ⟨hzero, rfl, rfl⟩)))
  · rw [if_neg hzero] at hrest
    exact Or.inr (Or.inr (Or.inr (Or.inr ⟨hzero, hagain, hstop, hrest⟩)))

/-! ## No call is lost -/

variable {t : Walk V σ}

theorem walkChild_grows
    (hwalk : ∀ s a s' rrc, walk s (some a) = some (s', rrc) → s.calls <+: s'.calls)
    (hnext : ∀ s' n, next s' n = some (t, r) → s'.calls <+: t.calls)
    (hrun : walkChild walk s child rc next = some (t, r)) : s.calls <+: t.calls := by
  rcases walkChild_cases hrun with ⟨-, hrest⟩ | ⟨a, s', rrc, -, hchild, hrest⟩
  · exact hnext s rc hrest
  · have hcalls := hwalk s a s' rrc hchild
    rcases hrest with ⟨-, -, rfl⟩ | ⟨-, n, -, hrest⟩
    · exact hcalls
    · exact hcalls.trans (hnext s' n hrest)

theorem walkRest_grows
    (hwalk : ∀ s a s' rrc, walk s (some a) = some (s', rrc) → s.calls <+: s'.calls)
    (hrun : walkRest sorted walk node s rc = some (t, r)) : s.calls <+: t.calls := by
  obtain ⟨n, -, hleft⟩ := Option.bind_eq_some_iff.mp hrun
  refine walkChild_grows hwalk (fun s₁ n₁ hrun₁ => ?_) hleft
  obtain ⟨n', -, hright⟩ := Option.bind_eq_some_iff.mp hrun₁
  refine walkChild_grows hwalk (fun s₂ n₂ heq => ?_) hright
  cases heq
  exact List.prefix_refl _

/-- A visit adds at least one call. -/
theorem visit_grows
    (hwalk : ∀ s a s' rrc, walk s (some a) = some (s', rrc) → s.calls <+: s'.calls)
    (hrun : visit cmp mem cb sorted walk node s rc = some (t, r)) :
    s.calls <+: t.calls ∧ s.calls.length < t.calls.length := by
  obtain ⟨s₁, code, hcb, hcases⟩ := visit_cases hrun
  obtain ⟨e, he⟩ := callback_calls hcb
  have hlater : s₁.calls <+: t.calls := by
    rcases hcases with ⟨-, hremove, -⟩ | ⟨-, s₂, a, h₂, hagain⟩ | ⟨-, -, rfl, -⟩ | ⟨-, rfl, -⟩ |
      ⟨-, -, -, hrest⟩
    · rw [removeVisited_calls hremove]
    · rw [← h₂]
      exact hwalk s₂ a t r hagain
    · exact List.prefix_refl _
    · exact List.prefix_refl _
    · exact walkRest_grows hwalk hrest
  have hlen := hlater.length_le
  rw [he, List.length_append, List.length_singleton] at hlen
  exact ⟨(he ▸ List.prefix_append _ _ : s.calls <+: s₁.calls).trans hlater, hlen⟩

/-! ## Counts and calls -/

/-- A call that answered that the walk is to stop. -/
def Stops {β : Type*} (c : β × ℤ) : Prop := c.2 = 0 ∨ c.2 = -2

/-- After an answer to stop there is no other call. -/
def StopsAtOnce {β : Type*} (calls : List (β × ℤ)) : Prop :=
  ∀ as c bs, calls = as ++ c :: bs → Stops c → bs = []

/-- No call answered that the walk is to stop. -/
def NeverStops {β : Type*} (calls : List (β × ℤ)) : Prop := ∀ c ∈ calls, ¬ Stops c

section Stops

variable {β : Type*} {l m : List (β × ℤ)}

theorem StopsAtOnce.neverStops (h : StopsAtOnce m) (hle : l <+: m) (hlt : l.length < m.length) :
    NeverStops l := by
  obtain ⟨x, rfl⟩ := hle
  intro c hc hstop
  obtain ⟨as, bs, rfl⟩ := List.append_of_mem hc
  have hnil := h as c (bs ++ x) (by rw [List.append_assoc, List.cons_append]) hstop
  rw [(List.append_eq_nil_iff.mp hnil).2, List.append_nil] at hlt
  exact Nat.lt_irrefl _ hlt

theorem NeverStops.of_prefix (h : NeverStops m) (hle : l <+: m) : NeverStops l :=
  fun c hc => h c (hle.subset hc)

end Stops

/-- A walk in order may count one call too many: the parent counts itself before it calls the
callback. -/
def spare (sorted : Bool) : ℤ := if sorted then 1 else 0

theorem spare_nonneg (sorted : Bool) : 0 ≤ spare sorted := by
  cases sorted <;> decide

/-- The walk went on from `s` to `s'`, with at least one more call, and its count is by `k`
lower than the number of calls, or lower still, if it was stopped at most once. -/
structure Walked (sorted : Bool) (k : ℕ) (s s' : Walk V σ) (r : ℤ) : Prop where
  calls : s.calls <+: s'.calls
  more : s.calls.length < s'.calls.length
  nonneg : 0 ≤ r
  small : r < 2 ^ 31
  going : NeverStops s'.calls → 1 ≤ r ∧ (s.calls.length : ℤ) + r + k ≤ s'.calls.length
  stopped : StopsAtOnce s'.calls →
    (r = 0 → (s.calls.length : ℤ) + 1 + k ≤ s'.calls.length) ∧
    (s.calls.length : ℤ) + r + k ≤ s'.calls.length + spare sorted

variable {k m : ℕ} {s₀ : Walk V σ} {rrc : ℤ}

theorem Walked.weaken (h : Walked sorted k s s' r) (hcalls : s₀.calls <+: s.calls)
    (hm : s₀.calls.length + m ≤ s.calls.length + k) : Walked sorted m s₀ s' r := by
  have hle := hcalls.length_le
  have hmore := h.more
  refine ⟨hcalls.trans h.calls, by omega, h.nonneg, h.small, fun hnever => ?_, fun honce => ?_⟩
  · obtain ⟨hpos, hcount⟩ := h.going hnever
    omega
  · obtain ⟨hzero, hcount⟩ := h.stopped honce
    constructor
    · intro hr
      have hz := hzero hr
      omega
    · omega

/-- The counts of a walk and of that of a child after it are added; a zero counts as one. -/
theorem Walked.add (h : Walked sorted k s₀ s rc) (hchild : Walked sorted m s s' rrc) {n : ℤ}
    (hn : rrc = 0 ∧ n = rc + 1 ∨ rrc ≠ 0 ∧ n = rc + rrc) (hsmall : n < 2 ^ 31) :
    Walked sorted (k + m) s₀ s' n := by
  have hmore := h.more
  have hmore' := hchild.more
  have hnonneg := h.nonneg
  have hnonneg' := hchild.nonneg
  have hspare := spare_nonneg sorted
  refine ⟨h.calls.trans hchild.calls, hmore.trans hmore', by omega, hsmall, fun hnever => ?_,
    fun honce => ?_⟩
  · obtain ⟨hpos, hcount⟩ := h.going (hnever.of_prefix hchild.calls)
    obtain ⟨hpos', hcount'⟩ := hchild.going hnever
    omega
  · obtain ⟨hpos, hcount⟩ := h.going (honce.neverStops hchild.calls hmore')
    obtain ⟨hzero', hcount'⟩ := hchild.stopped honce
    omega

theorem walkChild_walked (h : Walked sorted k s₀ s rc)
    (hwalk : ∀ a s' rrc, walk s (some a) = some (s', rrc) → Walked sorted 0 s s' rrc)
    (hnext : ∀ s' n, Walked sorted k s₀ s' n → next s' n = some (t, r) → Walked sorted k s₀ t r)
    (hrun : walkChild walk s child rc next = some (t, r)) : Walked sorted k s₀ t r := by
  rcases walkChild_cases hrun with ⟨-, hrest⟩ | ⟨a, s', rrc, -, hchild, hrest⟩
  · exact hnext s rc h hrest
  · have hw := hwalk a s' rrc hchild
    rcases hrest with ⟨hzero, hadd, rfl⟩ | ⟨hne, n, hadd, hrest⟩
    · obtain ⟨rfl, hsmall⟩ := addCount_eq_some hadd
      exact h.add hw (Or.inl ⟨hzero, rfl⟩) hsmall
    · obtain ⟨rfl, hsmall⟩ := addCount_eq_some hadd
      exact hnext s' _ (h.add hw (Or.inr ⟨hne, rfl⟩) hsmall) hrest

theorem walkRest_walked (h : Walked sorted k s₀ s rc)
    (hwalk : ∀ s a s' rrc, walk s (some a) = some (s', rrc) → Walked sorted 0 s s' rrc)
    (hrun : walkRest sorted walk node s rc = some (t, r)) : Walked sorted k s₀ t r := by
  obtain ⟨n, -, hleft⟩ := Option.bind_eq_some_iff.mp hrun
  refine walkChild_walked h (hwalk s) ?_ hleft
  intro s₁ n₁ h₁ hrun₁
  obtain ⟨n', -, hright⟩ := Option.bind_eq_some_iff.mp hrun₁
  refine walkChild_walked h₁ (hwalk s₁) ?_ hright
  intro s₂ n₂ h₂ heq
  cases heq
  exact h₂

/-- A visit after the nodes before it have been walked. -/
theorem visit_walked (hcalls : s₀.calls <+: s.calls) (hpos : 1 ≤ rc) (hsmall : rc < 2 ^ 31)
    (hcounted : NeverStops s.calls → (s₀.calls.length : ℤ) + rc + k ≤ s.calls.length + 1)
    (hwalk : ∀ s a s' rrc, walk s (some a) = some (s', rrc) → Walked sorted 0 s s' rrc)
    (hrun : visit cmp mem cb sorted walk node s rc = some (t, r)) : Walked sorted k s₀ t r := by
  obtain ⟨s₁, code, hcb, hcases⟩ := visit_cases hrun
  obtain ⟨e, he⟩ := callback_calls hcb
  have hlen : s₁.calls.length = s.calls.length + 1 := by
    rw [he, List.length_append, List.length_singleton]
  have hbefore : s.calls <+: s₁.calls := he ▸ List.prefix_append _ _
  have hle := hcalls.length_le
  have hspare := spare_nonneg sorted
  -- the walk after the callback, with the count so far
  have hbegun : Walked sorted k s₀ s₁ rc := by
    refine ⟨hcalls.trans hbefore, by omega, by omega, hsmall, fun hnever => ?_, fun honce => ?_⟩
    · have hc := hcounted (hnever.of_prefix hbefore)
      omega
    · have hc := hcounted (honce.neverStops hbefore (by omega))
      omega
  have hstop : ∀ {t : Walk V σ}, t.calls = s₁.calls → Stops (e, code) →
      Walked sorted k s₀ t 0 := by
    intro t ht hcode
    refine ⟨ht ▸ hbegun.calls, ht ▸ hbegun.more, le_refl _, by decide, fun hnever => ?_,
      fun honce => ?_⟩
    · rw [ht, he] at hnever
      exact absurd hcode (hnever _ (List.mem_append_right _ (List.mem_singleton_self _)))
    · rw [ht] at honce ⊢
      have hc := hcounted (honce.neverStops hbefore (by omega))
      omega
  rcases hcases with ⟨hcode, hremove, rfl⟩ | ⟨-, s₂, a, h₂, hagain⟩ | ⟨-, -, rfl, rfl⟩ |
    ⟨hcode, rfl, rfl⟩ | ⟨-, -, -, hrest⟩
  · exact hstop (removeVisited_calls hremove) (Or.inr hcode)
  · have hw := hwalk s₂ a t r hagain
    have hnonneg := hw.nonneg
    have hcalls₂ := hw.calls
    have hmore := hw.more
    rw [h₂] at hcalls₂ hmore
    refine ⟨hbegun.calls.trans hcalls₂, by omega, hnonneg, hw.small, fun hnever => ?_,
      fun honce => ?_⟩
    · obtain ⟨hpos', hcount'⟩ := hw.going hnever
      have hc := hcounted (hnever.of_prefix (hbefore.trans hcalls₂))
      rw [h₂] at hcount'
      omega
    · obtain ⟨hzero', hcount'⟩ := hw.stopped honce
      have hc := hcounted (honce.neverStops (hbefore.trans hcalls₂) (by omega))
      rw [h₂] at hzero' hcount'
      omega
  · refine ⟨hbegun.calls, hbegun.more, by decide, by decide, fun hnever => ?_, fun honce => ?_⟩
    · have hc := hcounted (hnever.of_prefix hbefore)
      omega
    · have hc := hcounted (honce.neverStops hbefore (by omega))
      omega
  · exact hstop rfl (Or.inl hcode)
  · exact walkRest_walked hbegun hwalk hrest

/-- A walk of the left child before the callback.  If it returns zero, the parent has already
counted itself. -/
theorem visit_after_walked (hchild : Walked true k s s' rrc)
    (hwalk : ∀ s a s' rrc, walk s (some a) = some (s', rrc) → Walked true 0 s s' rrc)
    (hrun : afterChild 1 (s', rrc) (visit cmp mem cb true walk node) = some (t, r)) :
    Walked true k s t r := by
  have hnonneg := hchild.nonneg
  by_cases hzero : rrc = 0
  · simp only [afterChild, if_pos hzero, Option.bind_eq_bind, Option.bind_eq_some_iff] at hrun
    obtain ⟨n, hadd, heq⟩ := hrun
    cases heq
    obtain ⟨rfl, hsmall⟩ := addCount_eq_some hadd
    refine ⟨hchild.calls, hchild.more, by decide, hsmall, fun hnever => ?_, fun honce => ?_⟩
    · have hpos := (hchild.going hnever).1
      omega
    · have hone : spare true = 1 := rfl
      have hz := (hchild.stopped honce).1 hzero
      omega
  · simp only [afterChild, if_neg hzero, Option.bind_eq_bind, Option.bind_eq_some_iff] at hrun
    obtain ⟨n, hadd, hvisit⟩ := hrun
    obtain ⟨rfl, hsmall⟩ := addCount_eq_some hadd
    refine visit_walked hchild.calls (by omega) hsmall (fun hnever => ?_) hwalk hvisit
    have hcount := (hchild.going hnever).2
    omega

/-- Every walk of a node calls the callback, and does not lose what was recorded before. -/
theorem walk_walked (fuel : ℕ) : ∀ (s : Walk V σ) (a : Addr) (t : Walk V σ) (r : ℤ),
    rbtWalkInternal cmp mem cb sorted fuel s (some a) = some (t, r) →
      Walked sorted 0 s t r := by
  induction fuel with
  | zero =>
      intro s a t r h
      cases h
  | succ fuel ih =>
      intro s a t r h
      obtain ⟨n, -, hrun⟩ := Option.bind_eq_some_iff.mp h
      have hvisit : visit cmp mem cb sorted (rbtWalkInternal cmp mem cb sorted fuel) a s 1 =
          some (t, r) → Walked sorted 0 s t r :=
        visit_walked (List.prefix_refl _) (le_refl _) (by decide) (fun _ => by omega) ih
      cases sorted with
      | false => exact hvisit hrun
      | true =>
          by_cases hleft : n.left.isSome
          · obtain ⟨b, hb⟩ := Option.isSome_iff_exists.mp hleft
            rw [walkChild, if_pos rfl, if_pos hleft, hb] at hrun
            obtain ⟨⟨s', rrc⟩, hwalk, hrest⟩ := Option.bind_eq_some_iff.mp hrun
            exact visit_after_walked (ih s b s' rrc hwalk) ih hrest
          · rw [walkChild, if_pos rfl, if_neg hleft] at hrun
            exact hvisit hrun

end RbTree
end LibHL
