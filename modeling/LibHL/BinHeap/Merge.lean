import LibHL.BinHeap.MergeModel

/-!
# A merge keeps every node

Every round of the merge puts a tree on the new list or links two trees, so the loop
ends.  The trees in hand, those left in the two lists and those on the new list are the
roots of one forest, which always has the same nodes.
-/

namespace LibHL
namespace BinHeap

variable {K V : Type}

namespace MergeState

/-- The trees that are not on the new list yet. -/
def pending (s : MergeState K V) : List Addr := s.src₁.all ++ s.src₂.all ++ s.carry.toList

/-- All trees. -/
def roots (s : MergeState K V) : List Addr := s.pending ++ s.newList

/-- The trees are the roots of one forest, and a tree is in hand as long as there are
trees left. -/
structure Linked (s : MergeState K V) : Prop where
  forest : Forest s.nodes.live s.roots (parentOf s.nodes) (childrenOf s.nodes)
  ended₁ : s.src₁.node = none → s.src₁.trees = []
  ended₂ : s.src₂.node = none → s.src₂.trees = []

/-- The state after a link: `root` has adopted `other`. -/
structure Links (s s' : MergeState K V) (root other : Addr) : Prop where
  adopts : Adopts s.nodes s'.nodes root [other]
  eq : s' = { s with
    nodes := s'.nodes
    links := s.links ++ [(order s.nodes root, order s.nodes other)] }

/-- The keys of two nodes compare by `wins`. -/
def Wins (wins : K → K → Bool) (nodes : Heap (BinomialTreeNode K V)) (a b : Addr) : Prop :=
  ∀ k l, keyOf nodes a = some k → keyOf nodes b = some l → wins k l = true

/-- One of two trees is the root of both. -/
def OneOf (root other a b : Addr) : Prop :=
  (root = a ∧ other = b) ∨ (root = b ∧ other = a)

variable {s s' s₁ : MergeState K V} {a b carry root other : Addr} {c : Comparator K}
  {cmp : K → K → ℤ} {mode : BinheapMode}

theorem wins_iff {wins : K → K → Bool} {nodes : Heap (BinomialTreeNode K V)}
    {n m : BinomialTreeNode K V} (hn : nodes a = some n) (hm : nodes b = some m) :
    Wins wins nodes a b ↔ wins n.key m.key = true := by
  constructor
  · exact fun h => h _ _ (keyOf_eq hn) (keyOf_eq hm)
  · intro h k l hk hl
    rw [keyOf_eq hn] at hk
    rw [keyOf_eq hm] at hl
    cases hk
    cases hl
    exact h

theorem wins_precedes_iff {nodes : Heap (BinomialTreeNode K V)} :
    Wins (precedes cmp mode) nodes a b ↔ Above cmp mode nodes a b := by
  constructor
  · exact fun h k l hk hl => of_decide_eq_true (h k l hk hl)
  · exact fun h k l hk hl => decide_eq_true (h k l hk hl)

/-! ## Linking two trees -/

theorem link_spec (wins : K → K → Bool) (ha : a ∈ s.nodes.live) (hb : b ∈ s.nodes.live)
    (hne : a ≠ b) :
    ∃ s', (Wins wins s.nodes a b ∧ link wins s a b = some (s', a) ∧ Links s s' a b) ∨
      (¬ Wins wins s.nodes a b ∧ link wins s a b = some (s', b) ∧ Links s s' b a) := by
  obtain ⟨n, hn⟩ := Heap.exists_of_mem_live ha
  obtain ⟨m, hm⟩ := Heap.exists_of_mem_live hb
  have hna : order s.nodes a = n.children.length := by rw [order, childrenOf_eq hn]
  have hmb : order s.nodes b = m.children.length := by rw [order, childrenOf_eq hm]
  rw [wins_iff hn hm]
  by_cases hwins : wins n.key m.key = true
  · obtain ⟨nodes', hmerge, had⟩ := binomialTreeNodeAdd_adopts ha hb hne.symm
    refine ⟨{ s with
      nodes := nodes'
      links := s.links ++ [(n.children.length, m.children.length)] },
      Or.inl ⟨hwins, ?_, had, by rw [hna, hmb]⟩⟩
    simp [link, hn, hm, hwins, binomialTreeMerge, hmerge]
  · obtain ⟨nodes', hmerge, had⟩ := binomialTreeNodeAdd_adopts hb ha hne
    refine ⟨{ s with
      nodes := nodes'
      links := s.links ++ [(m.children.length, n.children.length)] },
      Or.inr ⟨hwins, ?_, had, by rw [hna, hmb]⟩⟩
    simp [link, hn, hm, hwins, binomialTreeMerge, hmerge]

/-- A link by precedence puts the tree with precedence on top. -/
theorem link_precedes (c : Comparator K) (mode : BinheapMode) (ha : a ∈ s.nodes.live)
    (hb : b ∈ s.nodes.live) (hne : a ≠ b) :
    ∃ s' root other, link (precedes c.cmp mode) s a b = some (s', root) ∧
      OneOf root other a b ∧ Above c.cmp mode s.nodes root other ∧ Links s s' root other ∧
      (root = a ↔ Above c.cmp mode s.nodes a b) := by
  obtain ⟨s', ⟨hw, hrun, hl⟩ | ⟨hw, hrun, hl⟩⟩ := link_spec (precedes c.cmp mode) ha hb hne
  · rw [wins_precedes_iff] at hw
    exact ⟨s', a, b, hrun, Or.inl ⟨rfl, rfl⟩, hw, hl, fun _ => hw, fun _ => rfl⟩
  · rw [wins_precedes_iff] at hw
    obtain ⟨n, hn⟩ := Heap.exists_of_mem_live ha
    obtain ⟨m, hm⟩ := Heap.exists_of_mem_live hb
    have hba : Above c.cmp mode s.nodes b a := by
      apply above_of_key hm hn
      exact (hasPrecedence_total c mode n.key m.key).resolve_left
        fun hprec => hw (above_of_key hn hm hprec)
    exact ⟨s', b, a, hrun, Or.inr ⟨rfl, rfl⟩, hba, hl, fun heq => absurd heq.symm hne,
      fun habove => absurd habove hw⟩

/-! ## What the first half of a round does -/

/-- The carry is linked, exchanged, or left alone. -/
inductive Settles (cmp : K → K → ℤ) (mode : BinheapMode) (s : MergeState K V) :
    MergeState K V → Prop where
  | idle (carry_eq : s.carry = none) : Settles cmp mode s s
  | link₁ {a carry root other : Addr} {s' : MergeState K V} (carry_eq : s.carry = some carry)
      (node_eq : s.src₁.node = some a) (order_eq : order s.nodes a = order s.nodes carry)
      (oneOf : OneOf root other a carry) (above : Above cmp mode s.nodes root other)
      (links : Links s s' root other) :
      Settles cmp mode s
        { s' with src₁ := { s.src₁ with node := some root }, carry := none }
  | link₂ {b carry root other : Addr} {s' : MergeState K V} (carry_eq : s.carry = some carry)
      (node_eq : s.src₂.node = some b) (order_eq : order s.nodes b = order s.nodes carry)
      (oneOf : OneOf root other b carry) (above : Above cmp mode s.nodes root other)
      (links : Links s s' root other) :
      Settles cmp mode s
        { s' with src₂ := { s.src₂ with node := some root }, carry := none }
  | swap₁ {a carry : Addr} (carry_eq : s.carry = some carry) (node_eq : s.src₁.node = some a)
      (lt : order s.nodes carry < order s.nodes a)
      (ne : ∀ b ∈ s.src₂.node, order s.nodes b ≠ order s.nodes carry) :
      Settles cmp mode s
        { s with src₁ := { s.src₁ with node := some carry }, carry := some a }
  | swap₂ {b carry : Addr} (carry_eq : s.carry = some carry) (node_eq : s.src₂.node = some b)
      (lt : order s.nodes carry < order s.nodes b)
      (ne : ∀ a ∈ s.src₁.node, order s.nodes a ≠ order s.nodes carry) :
      Settles cmp mode s
        { s with src₂ := { s.src₂ with node := some carry }, carry := some b }
  | keep {carry : Addr} (carry_eq : s.carry = some carry)
      (lt₁ : ∀ a ∈ s.src₁.node, order s.nodes a < order s.nodes carry)
      (lt₂ : ∀ b ∈ s.src₂.node, order s.nodes b < order s.nodes carry)
      (inHand : s.src₁.node ≠ none ∨ s.src₂.node ≠ none) :
      Settles cmp mode s s

/-- The slip in the link of a pair with a carry does no harm: the first tree does not
stay the root, or the direction of the comparison does not matter. -/
def Fair (cmp : K → K → ℤ) (mode : BinheapMode) (nodes : Heap (BinomialTreeNode K V))
    (a b carry : Addr) : Prop :=
  mode = .min → Above cmp mode nodes a b →
    ∀ k l, keyOf nodes a = some k → keyOf nodes carry = some l → cmp k l = 0

/-- A tree is put on the new list, or two trees of equal order are linked. -/
inductive Compares (cmp : K → K → ℤ) (mode : BinheapMode) (s : MergeState K V) :
    MergeState K V → Prop where
  | push₁ {a : Addr} (node_eq : s.src₁.node = some a)
      (lt : ∀ b ∈ s.src₂.node, order s.nodes a < order s.nodes b) :
      Compares cmp mode s (s.push₁ a)
  | push₂ {b : Addr} (node_eq : s.src₂.node = some b)
      (lt : ∀ a ∈ s.src₁.node, order s.nodes b < order s.nodes a) :
      Compares cmp mode s (s.push₂ b)
  | link {a b root other : Addr} {s' : MergeState K V} (carry_eq : s.carry = none)
      (node₁_eq : s.src₁.node = some a) (node₂_eq : s.src₂.node = some b)
      (order_eq : order s.nodes a = order s.nodes b) (oneOf : OneOf root other a b)
      (above : Above cmp mode s.nodes root other) (links : Links s s' root other) :
      Compares cmp mode s
        { s' with src₁ := s.src₁.shift, src₂ := s.src₂.shift, carry := some root }
  | linkCarry {a b carry root other root' other' : Addr} {s' s'' : MergeState K V}
      (carry_eq : s.carry = some carry) (node₁_eq : s.src₁.node = some a)
      (node₂_eq : s.src₂.node = some b) (order_eq : order s.nodes a = order s.nodes b)
      (oneOf : OneOf root other a b) (above : Above cmp mode s.nodes root other)
      (links : Links s s' root other) (oneOf' : OneOf root' other' root carry)
      (fair : Above cmp mode s.nodes root' other' ↔ Fair cmp mode s.nodes a b carry)
      (links' : Links s' s'' root' other') :
      Compares cmp mode s
        { s'' with src₁ := s.src₁.shift, src₂ := s.src₂.shift, carry := some root' }

/-! ## The trees in hand -/

theorem mem_roots₁ (h : s.src₁.node = some a) : a ∈ s.roots := by
  simp [roots, pending, Source.all, h]

theorem mem_roots₂ (h : s.src₂.node = some b) : b ∈ s.roots := by
  simp [roots, pending, Source.all, h]

theorem mem_roots_carry (h : s.carry = some carry) : carry ∈ s.roots := by
  simp [roots, pending, h]

theorem Linked.live (h : Linked s) (ha : a ∈ s.roots) : a ∈ s.nodes.live :=
  h.forest.mem_of_root ha

theorem Linked.node₁_ne_node₂ (h : Linked s) (ha : s.src₁.node = some a)
    (hb : s.src₂.node = some b) : a ≠ b := by
  rintro rfl
  have hnodup := h.forest.rootsNodup
  simp [roots, pending, Source.all, ha, hb] at hnodup

theorem Linked.node₁_ne_carry (h : Linked s) (ha : s.src₁.node = some a)
    (hc : s.carry = some carry) : a ≠ carry := by
  rintro rfl
  have hnodup := h.forest.rootsNodup
  simp [roots, pending, Source.all, ha, hc] at hnodup

theorem Linked.node₂_ne_carry (h : Linked s) (hb : s.src₂.node = some b)
    (hc : s.carry = some carry) : b ≠ carry := by
  rintro rfl
  have hnodup := h.forest.rootsNodup
  simp [roots, pending, Source.all, hb, hc, List.nodup_append] at hnodup

theorem orderTest_eq {nodes : Heap (BinomialTreeNode K V)} (test : ℕ → Bool) {o : Option Addr}
    (ho : ∀ a ∈ o, a ∈ nodes.live) :
    orderTest nodes test o = some (o.any fun a => test (order nodes a)) := by
  cases o with
  | none => rfl
  | some a =>
      obtain ⟨n, hn⟩ := Heap.exists_of_mem_live (ho a rfl)
      simp [orderTest, hn, order, childrenOf_eq hn]

/-- The first half of a round. -/
theorem settleCarry_spec (c : Comparator K) (mode : BinheapMode) (h : Linked s)
    (hc : s.carry = some carry) :
    (s.src₁.node = none ∧ s.src₂.node = none ∧ settleCarry c.cmp mode s carry =
        some ({ s with newList := s.newList ++ [carry], carry := none }, true)) ∨
      ((s.src₁.node ≠ none ∨ s.src₂.node ≠ none) ∧
        ∃ s₁, settleCarry c.cmp mode s carry = some (s₁, false) ∧ Settles c.cmp mode s s₁) := by
  have hclive := h.live (mem_roots_carry hc)
  obtain ⟨n, hn⟩ := Heap.exists_of_mem_live hclive
  have horder : n.children.length = order s.nodes carry := by rw [order, childrenOf_eq hn]
  have htest₁ : ∀ test, orderTest s.nodes test s.src₁.node =
      some (s.src₁.node.any fun a => test (order s.nodes a)) :=
    fun test => orderTest_eq test fun a ha => h.live (mem_roots₁ ha)
  have htest₂ : ∀ test, orderTest s.nodes test s.src₂.node =
      some (s.src₂.node.any fun a => test (order s.nodes a)) :=
    fun test => orderTest_eq test fun a ha => h.live (mem_roots₂ ha)
  by_cases heq₁ : ∃ a, s.src₁.node = some a ∧ order s.nodes a = order s.nodes carry
  · obtain ⟨a, ha, heq⟩ := heq₁
    obtain ⟨s', root, other, hlink, hone, habove, hl, -⟩ := link_precedes c mode
      (h.live (mem_roots₁ ha)) hclive (h.node₁_ne_carry ha hc)
    refine Or.inr ⟨Or.inl (by simp [ha]), _, ?_, .link₁ hc ha heq hone habove hl⟩
    have hsrc : s'.src₁ = s.src₁ := by rw [hl.eq]
    simp only [settleCarry, hn, htest₁, horder, Option.bind_eq_bind, Option.bind_some]
    simp only [ha, heq, hlink, hsrc, Option.bind_some, Option.any_some, decide_true, if_true]
  have hno₁ : s.src₁.node.any (fun a => decide (order s.nodes a = order s.nodes carry)) = false := by
    cases ha : s.src₁.node with
    | none => rfl
    | some a => exact decide_eq_false fun heq => heq₁ ⟨a, ha, heq⟩
  by_cases heq₂ : ∃ b, s.src₂.node = some b ∧ order s.nodes b = order s.nodes carry
  · obtain ⟨b, hb, heq⟩ := heq₂
    obtain ⟨s', root, other, hlink, hone, habove, hl, -⟩ := link_precedes c mode
      (h.live (mem_roots₂ hb)) hclive (h.node₂_ne_carry hb hc)
    refine Or.inr ⟨Or.inr (by simp [hb]), _, ?_, .link₂ hc hb heq hone habove hl⟩
    have hsrc : s'.src₂ = s.src₂ := by rw [hl.eq]
    simp only [settleCarry, hn, htest₁, htest₂, hno₁, horder, Option.bind_eq_bind,
      Option.bind_some, Bool.false_eq_true, if_false]
    simp only [hb, heq, hlink, hsrc, Option.bind_some, Option.any_some, decide_true, if_true]
  have hno₂ : s.src₂.node.any (fun b => decide (order s.nodes b = order s.nodes carry)) = false := by
    cases hb : s.src₂.node with
    | none => rfl
    | some b => exact decide_eq_false fun heq => heq₂ ⟨b, hb, heq⟩
  by_cases hnone : s.src₁.node = none ∧ s.src₂.node = none
  · refine Or.inl ⟨hnone.1, hnone.2, ?_⟩
    simp only [settleCarry, hn, htest₁, htest₂, hno₁, hno₂, horder, Option.bind_eq_bind,
      Option.bind_some, Bool.false_eq_true, if_false, if_pos hnone]
  have hsome : s.src₁.node ≠ none ∨ s.src₂.node ≠ none := by
    rw [← not_and_or]
    exact hnone
  refine Or.inr ⟨hsome, ?_⟩
  by_cases hlt₁ : ∃ a, s.src₁.node = some a ∧ order s.nodes carry < order s.nodes a
  · obtain ⟨a, ha, hlt⟩ := hlt₁
    refine ⟨_, ?_, .swap₁ hc ha hlt fun b hb heq => heq₂ ⟨b, hb, heq⟩⟩
    simp only [settleCarry, hn, htest₁, htest₂, hno₁, hno₂, horder, Option.bind_eq_bind,
      Option.bind_some, Bool.false_eq_true, if_false, if_neg hnone]
    simp [ha, hlt]
  have hle₁ : s.src₁.node.any (fun a => decide (order s.nodes carry < order s.nodes a)) = false := by
    cases ha : s.src₁.node with
    | none => rfl
    | some a => exact decide_eq_false fun hlt => hlt₁ ⟨a, ha, hlt⟩
  by_cases hlt₂ : ∃ b, s.src₂.node = some b ∧ order s.nodes carry < order s.nodes b
  · obtain ⟨b, hb, hlt⟩ := hlt₂
    refine ⟨_, ?_, .swap₂ hc hb hlt fun a ha heq => heq₁ ⟨a, ha, heq⟩⟩
    simp only [settleCarry, hn, htest₁, htest₂, hno₁, hno₂, hle₁, horder, Option.bind_eq_bind,
      Option.bind_some, Bool.false_eq_true, if_false, if_neg hnone]
    simp [hb, hlt]
  have hle₂ : s.src₂.node.any (fun b => decide (order s.nodes carry < order s.nodes b)) = false := by
    cases hb : s.src₂.node with
    | none => rfl
    | some b => exact decide_eq_false fun hlt => hlt₂ ⟨b, hb, hlt⟩
  refine ⟨s, ?_, .keep hc ?_ ?_ hsome⟩
  · simp only [settleCarry, hn, htest₁, htest₂, hno₁, hno₂, hle₁, hle₂, horder,
      Option.bind_eq_bind, Option.bind_some, Bool.false_eq_true, if_false, if_neg hnone]
  · intro a ha
    exact Nat.lt_of_le_of_ne (Nat.not_lt.mp fun hlt => hlt₁ ⟨a, ha, hlt⟩)
      fun heq => heq₁ ⟨a, ha, heq⟩
  · intro b hb
    exact Nat.lt_of_le_of_ne (Nat.not_lt.mp fun hlt => hlt₂ ⟨b, hb, hlt⟩)
      fun heq => heq₂ ⟨b, hb, heq⟩

/-! ## The second half of a round -/

theorem above_iff_key {nodes : Heap (BinomialTreeNode K V)} {n m : BinomialTreeNode K V}
    (hn : nodes a = some n) (hm : nodes b = some m) :
    Above cmp mode nodes a b ↔ HasPrecedence cmp mode n.key m.key :=
  ⟨fun h => h _ _ (keyOf_eq hn) (keyOf_eq hm), above_of_key hn hm⟩

theorem fair_iff_key {nodes : Heap (BinomialTreeNode K V)} {n l : BinomialTreeNode K V}
    (hn : nodes a = some n) (hl : nodes carry = some l) (hab : Above cmp mode nodes a b) :
    Fair cmp mode nodes a b carry ↔ (mode = .min → cmp n.key l.key = 0) := by
  constructor
  · exact fun h hmode => h hmode hab _ _ (keyOf_eq hn) (keyOf_eq hl)
  · intro h hmode _ k₁ k₂ hk₁ hk₂
    rw [keyOf_eq hn] at hk₁
    rw [keyOf_eq hl] at hk₂
    cases hk₁
    cases hk₂
    exact h hmode

/-- The comparison with the carry goes the right way at the top exactly if it does at
both ends. -/
theorem slip_iff (c : Comparator K) (mode : BinheapMode) (k l : K) :
    (0 ≤ c.cmp k l → (HasPrecedence c.cmp mode k l ↔ (mode = .min → c.cmp k l = 0))) ∧
      (¬ 0 ≤ c.cmp k l → (HasPrecedence c.cmp mode l k ↔ (mode = .min → c.cmp k l = 0))) := by
  cases mode with
  | max =>
      refine ⟨fun h => ⟨fun _ => nofun, fun _ => h⟩, fun h => ⟨fun _ => nofun, fun _ => ?_⟩⟩
      exact (c.dual l k).mpr (Int.le_of_lt (Int.not_le.mp h))
  | min =>
      constructor
      · intro h
        show c.cmp k l ≤ 0 ↔ _
        constructor
        · exact fun hle _ => Int.le_antisymm hle h
        · exact fun hzero => Int.le_of_eq (hzero rfl)
      · intro h
        show c.cmp l k ≤ 0 ↔ _
        rw [← c.dual]
        constructor
        · exact fun hge => absurd hge h
        · exact fun hzero => absurd (Int.le_of_eq (hzero rfl).symm) h

theorem linkCarry_spec (c : Comparator K) (mode : BinheapMode) (h : Linked s)
    (hc : s.carry = some carry) (ha : s.src₁.node = some a) (hb : s.src₂.node = some b)
    (hone : OneOf root other a b) (hl : Links s s' root other)
    (hroot : root = a ↔ Above c.cmp mode s.nodes a b) {wins : K → K → Bool}
    (hwins : wins = if root = a then (fun k₁ k₂ => decide (0 ≤ c.cmp k₁ k₂))
      else precedes c.cmp mode) :
    ∃ s'' root' other', linkCarry wins s' root = some { s'' with carry := some root' } ∧
      OneOf root' other' root carry ∧
      (Above c.cmp mode s.nodes root' other' ↔ Fair c.cmp mode s.nodes a b carry) ∧
      Links s' s'' root' other' := by
  have hrlive : root ∈ s.nodes.live := by
    rcases hone with ⟨rfl, -⟩ | ⟨rfl, -⟩
    · exact h.live (mem_roots₁ ha)
    · exact h.live (mem_roots₂ hb)
  have hclive := h.live (mem_roots_carry hc)
  have hne : root ≠ carry := by
    rcases hone with ⟨rfl, -⟩ | ⟨rfl, -⟩
    · exact h.node₁_ne_carry ha hc
    · exact h.node₂_ne_carry hb hc
  have hlive := hl.adopts.same.live_eq
  have hcarry : s'.carry = some carry := by rw [hl.eq]; exact hc
  obtain ⟨n, hn⟩ := Heap.exists_of_mem_live hrlive
  obtain ⟨l, hlc⟩ := Heap.exists_of_mem_live hclive
  have hkeys : ∀ x y, Wins wins s'.nodes x y ↔ Wins wins s.nodes x y := by
    intro x y
    rw [Wins, Wins, hl.adopts.same.keyOf_eq, hl.adopts.same.keyOf_eq]
  obtain ⟨s'', hcase⟩ := link_spec wins (s := s') (by rwa [hlive]) (by rwa [hlive]) hne
  rw [hkeys, wins_iff hn hlc] at hcase
  have hrun : ∀ r, link wins s' root carry = some (s'', r) →
      linkCarry wins s' root = some { s'' with carry := some r } := by
    intro r hr
    simp [linkCarry, hcarry, hr]
  by_cases hra : root = a
  · subst hra
    have hab := hroot.mp rfl
    rw [if_pos rfl] at hwins
    subst hwins
    have hslip := slip_iff c mode n.key l.key
    rw [fair_iff_key hn hlc hab]
    simp only [decide_eq_true_eq] at hcase
    rcases hcase with ⟨hw, hrunl, hl'⟩ | ⟨hw, hrunl, hl'⟩
    · refine ⟨s'', root, carry, hrun root hrunl, Or.inl ⟨rfl, rfl⟩, ?_, hl'⟩
      rw [above_iff_key hn hlc]
      exact hslip.1 hw
    · refine ⟨s'', carry, root, hrun carry hrunl, Or.inr ⟨rfl, rfl⟩, ?_, hl'⟩
      rw [above_iff_key hlc hn]
      exact hslip.2 hw
  · have hfair : Fair c.cmp mode s.nodes a b carry :=
      fun _ hab => absurd (hroot.mpr hab) hra
    rw [if_neg hra] at hwins
    subst hwins
    simp only [precedes, decide_eq_true_eq] at hcase
    rcases hcase with ⟨hw, hrunl, hl'⟩ | ⟨hw, hrunl, hl'⟩
    · exact ⟨s'', root, carry, hrun root hrunl, Or.inl ⟨rfl, rfl⟩,
        ⟨fun _ => hfair, fun _ => above_of_key hn hlc hw⟩, hl'⟩
    · have hprec := (hasPrecedence_total c mode n.key l.key).resolve_left hw
      exact ⟨s'', carry, root, hrun carry hrunl, Or.inr ⟨rfl, rfl⟩,
        ⟨fun _ => hfair, fun _ => above_of_key hlc hn hprec⟩, hl'⟩

/-- The second half of a round. -/
theorem compareNodes_spec (c : Comparator K) (mode : BinheapMode) (h : Linked s)
    (hsome : s.src₁.node ≠ none ∨ s.src₂.node ≠ none) :
    ∃ s', compareNodes c.cmp mode s = some s' ∧ Compares c.cmp mode s s' := by
  cases ha : s.src₁.node with
  | none =>
      cases hb : s.src₂.node with
      | none => simp [ha, hb] at hsome
      | some b =>
          refine ⟨s.push₂ b, by simp [compareNodes, ha, hb], .push₂ hb ?_⟩
          simp [ha]
  | some a =>
      cases hb : s.src₂.node with
      | none =>
          refine ⟨s.push₁ a, by simp [compareNodes, ha, hb], .push₁ ha ?_⟩
          simp [hb]
      | some b =>
          have halive := h.live (mem_roots₁ ha)
          have hblive := h.live (mem_roots₂ hb)
          obtain ⟨n, hn⟩ := Heap.exists_of_mem_live halive
          obtain ⟨m, hm⟩ := Heap.exists_of_mem_live hblive
          have hna : order s.nodes a = n.children.length := by rw [order, childrenOf_eq hn]
          have hmb : order s.nodes b = m.children.length := by rw [order, childrenOf_eq hm]
          rcases Nat.lt_trichotomy n.children.length m.children.length with hlt | heq | hlt
          · refine ⟨s.push₁ a, ?_, .push₁ ha ?_⟩
            · simp [compareNodes, ha, hb, hn, hm, hlt]
            · simp [hb, hna, hmb, hlt]
          · obtain ⟨s', root, other, hlink, hone, habove, hl, hroot⟩ :=
              link_precedes c mode halive hblive (h.node₁_ne_node₂ ha hb)
            have hroot' : root = a ↔ precedes c.cmp mode n.key m.key = true := by
              rw [hroot, above_iff_key hn hm, precedes, decide_eq_true_eq]
            have hsrc : s'.src₁ = s.src₁ ∧ s'.src₂ = s.src₂ ∧ s'.carry = s.carry := by
              rw [hl.eq]
              exact ⟨rfl, rfl, rfl⟩
            have horder : order s.nodes a = order s.nodes b := by rw [hna, hmb, heq]
            cases hc : s.carry with
            | none =>
                refine ⟨_, ?_, .link hc ha hb horder hone habove hl⟩
                simp [compareNodes, ha, hb, hn, hm, heq, hlink, linkCarry, hsrc, hc]
            | some carry =>
                obtain ⟨s'', root', other', hrun, hone', hfair, hl'⟩ :=
                  linkCarry_spec c mode h hc ha hb hone hl hroot rfl
                have hsrc' : s''.src₁ = s.src₁ ∧ s''.src₂ = s.src₂ := by
                  rw [hl'.eq]
                  exact ⟨hsrc.1, hsrc.2.1⟩
                refine ⟨_, ?_, .linkCarry hc ha hb horder hone habove hl hone' hfair hl'⟩
                by_cases hra : root = a
                · rw [if_pos hra] at hrun
                  have hprec := hroot'.mp hra
                  simp [compareNodes, ha, hb, hn, hm, heq, hlink, hprec, hrun, hsrc']
                · rw [if_neg hra] at hrun
                  have hprec : precedes c.cmp mode n.key m.key = false := by
                    rw [← Bool.not_eq_true, ← hroot']
                    exact hra
                  simp [compareNodes, ha, hb, hn, hm, heq, hlink, hprec, hrun, hsrc']
          · refine ⟨s.push₂ b, ?_, .push₂ hb ?_⟩
            · simp [compareNodes, ha, hb, hn, hm, hlt, Nat.lt_asymm hlt]
            · simp [ha, hna, hmb, hlt]

/-! ## The forest through a round -/

theorem all_shift (src : Source) : src.shift.all = src.trees := by
  cases h : src.trees with
  | nil => simp [Source.shift, Source.all, h]
  | cons t ts => simp [Source.shift, Source.all, h]

theorem shift_ended (src : Source) : src.shift.node = none → src.shift.trees = [] := by
  cases h : src.trees with
  | nil => simp [Source.shift, h]
  | cons t ts => simp [Source.shift, h]

theorem all_of_node {src : Source} (h : src.node = some a) : src.all = a :: src.trees := by
  rw [Source.all, h]
  rfl

theorem forest_link {nodes nodes' : Heap (BinomialTreeNode K V)} {roots roots' : List Addr}
    (hf : Forest nodes.live roots (parentOf nodes) (childrenOf nodes))
    (had : Adopts nodes nodes' root [other]) (hroot : root ∈ roots) (hne : root ≠ other)
    (hperm : roots.Perm (other :: roots')) :
    Forest nodes'.live roots' (parentOf nodes') (childrenOf nodes') := by
  have hother : other ∈ roots := hperm.mem_iff.mpr List.mem_cons_self
  have herase : roots'.Perm (roots.erase other) := by
    have h := hperm.erase other
    rw [List.erase_cons_head] at h
    exact h.symm
  rw [had.same.live_eq]
  apply hf.link hroot hother hne (had.adopted other List.mem_cons_self) _ had.children _ herase
  · intro x _ hx
    exact had.parentOther x (by simpa using hx)
  · intro x _ hx
    exact had.childrenOther x hx

/-- What a part of a round keeps: the trees are still the roots of a forest with the
same nodes, and `k` trees less are pending. -/
structure Keeps (k : ℕ) (s s' : MergeState K V) : Prop where
  linked : Linked s'
  same : SameItems s.nodes s'.nodes
  pending : s'.pending.length + k ≤ s.pending.length

theorem OneOf.ne (hone : OneOf root other a b) (hne : a ≠ b) : root ≠ other := by
  rcases hone with ⟨rfl, rfl⟩ | ⟨rfl, rfl⟩
  · exact hne
  · exact hne.symm

/-- How often a tree occurs among the roots, by the parts they come from. -/
theorem count_roots (s : MergeState K V) (x : Addr) :
    s.roots.count x = s.src₁.node.toList.count x + s.src₁.trees.count x +
      (s.src₂.node.toList.count x + s.src₂.trees.count x) + s.carry.toList.count x +
      s.newList.count x := by
  simp only [roots, pending, Source.all, List.count_append]

theorem count_shift (src : Source) (x : Addr) :
    src.shift.node.toList.count x + src.shift.trees.count x = src.trees.count x := by
  rw [← List.count_append, ← Source.all, all_shift]

theorem OneOf.count (hone : OneOf root other a b) (x : Addr) :
    [root].count x + [other].count x = [a].count x + [b].count x := by
  rcases hone with ⟨rfl, rfl⟩ | ⟨rfl, rfl⟩
  · rfl
  · exact Nat.add_comm _ _

theorem perm_cons_iff_count {l l' : List Addr} {y : Addr} :
    l.Perm (y :: l') ↔ ∀ x, l.count x = [y].count x + l'.count x := by
  have hcount : ∀ x, (y :: l').count x = [y].count x + l'.count x := by
    intro x
    show ([y] ++ l').count x = _
    rw [List.count_append]
  rw [List.perm_iff_count]
  simp only [hcount]

theorem Settles.keeps (hst : Settles cmp mode s s₁) (h : Linked s) : Keeps 0 s s₁ := by
  cases hst with
  | idle hc => exact ⟨h, Heap.SameThrough.refl _, Nat.le_refl _⟩
  | @link₁ a carry root other s' hc ha heq hone habove hl =>
      have hne := hone.ne (h.node₁_ne_carry ha hc)
      have hroot : root ∈ s.roots := by
        rcases hone with ⟨rfl, -⟩ | ⟨rfl, -⟩
        · exact mem_roots₁ ha
        · exact mem_roots_carry hc
      have hsrc : s'.src₂ = s.src₂ ∧ s'.newList = s.newList := by
        rw [hl.eq]
        exact ⟨rfl, rfl⟩
      refine ⟨⟨forest_link h.forest hl.adopts hroot hne ?_, by simp, ?_⟩, hl.adopts.same, ?_⟩
      · rw [perm_cons_iff_count]
        intro x
        have hx := hone.count x
        simp only [count_roots, ha, hc, hsrc, Option.toList_some, Option.toList_none,
          List.count_nil]
        omega
      · rw [hsrc.1]
        exact h.ended₂
      · simp [pending, Source.all, ha, hc, hsrc]
  | @link₂ b carry root other s' hc hb heq hone habove hl =>
      have hne := hone.ne (h.node₂_ne_carry hb hc)
      have hroot : root ∈ s.roots := by
        rcases hone with ⟨rfl, -⟩ | ⟨rfl, -⟩
        · exact mem_roots₂ hb
        · exact mem_roots_carry hc
      have hsrc : s'.src₁ = s.src₁ ∧ s'.newList = s.newList := by
        rw [hl.eq]
        exact ⟨rfl, rfl⟩
      refine ⟨⟨forest_link h.forest hl.adopts hroot hne ?_, ?_, by simp⟩, hl.adopts.same, ?_⟩
      · rw [perm_cons_iff_count]
        intro x
        have hx := hone.count x
        simp only [count_roots, hb, hc, hsrc, Option.toList_some, Option.toList_none,
          List.count_nil]
        omega
      · rw [hsrc.1]
        exact h.ended₁
      · simp [pending, Source.all, hb, hc, hsrc]
  | @swap₁ a carry hc ha hlt hne =>
      refine ⟨⟨h.forest.congr (fun _ _ => rfl) (fun _ _ => rfl) ?_, by simp, h.ended₂⟩,
        Heap.SameThrough.refl _, ?_⟩
      · rw [List.perm_iff_count]
        intro x
        simp only [count_roots, ha, hc, Option.toList_some]
        omega
      · simp [pending, Source.all, ha, hc]
  | @swap₂ b carry hc hb hlt hne =>
      refine ⟨⟨h.forest.congr (fun _ _ => rfl) (fun _ _ => rfl) ?_, h.ended₁, by simp⟩,
        Heap.SameThrough.refl _, ?_⟩
      · rw [List.perm_iff_count]
        intro x
        simp only [count_roots, hb, hc, Option.toList_some]
        omega
      · simp [pending, Source.all, hb, hc]
  | keep hc hlt₁ hlt₂ hin => exact ⟨h, Heap.SameThrough.refl _, Nat.le_refl _⟩

/-- The forest between the two links of a round that has a carry. -/
theorem forest_between (h : Linked s) (hc : s.carry = some carry) (ha : s.src₁.node = some a)
    (hb : s.src₂.node = some b) (hone : OneOf root other a b) (hl : Links s s' root other) :
    Forest s'.nodes.live
      ([root] ++ ([carry] ++ (s.src₁.trees ++ s.src₂.trees ++ s.newList)))
      (parentOf s'.nodes) (childrenOf s'.nodes) := by
  have hroot : root ∈ s.roots := by
    rcases hone with ⟨rfl, -⟩ | ⟨rfl, -⟩
    · exact mem_roots₁ ha
    · exact mem_roots₂ hb
  apply forest_link h.forest hl.adopts hroot (hone.ne (h.node₁_ne_node₂ ha hb))
  rw [perm_cons_iff_count]
  intro x
  have hx := hone.count x
  simp only [count_roots, ha, hb, hc, Option.toList_some, List.count_append]
  omega

theorem Compares.keeps (hcm : Compares cmp mode s s') (h : Linked s) : Keeps 1 s s' := by
  cases hcm with
  | @push₁ a ha hlt =>
      refine ⟨⟨h.forest.congr (fun _ _ => rfl) (fun _ _ => rfl) ?_, shift_ended _, h.ended₂⟩,
        Heap.SameThrough.refl _, ?_⟩
      · rw [List.perm_iff_count]
        intro x
        have hx := count_shift s.src₁ x
        simp only [count_roots, MergeState.push₁, ha, Option.toList_some, List.count_append]
        omega
      · simp [pending, MergeState.push₁, all_shift, all_of_node ha]
  | @push₂ b hb hlt =>
      refine ⟨⟨h.forest.congr (fun _ _ => rfl) (fun _ _ => rfl) ?_, h.ended₁, shift_ended _⟩,
        Heap.SameThrough.refl _, ?_⟩
      · rw [List.perm_iff_count]
        intro x
        have hx := count_shift s.src₂ x
        simp only [count_roots, MergeState.push₂, hb, Option.toList_some, List.count_append]
        omega
      · have hall : s.src₂.all.length = s.src₂.shift.all.length + 1 := by
          rw [all_shift, all_of_node hb, List.length_cons]
        simp only [pending, MergeState.push₂, List.length_append]
        omega
  | @link a b root other s₁ hc ha hb heq hone habove hl =>
      have hne := hone.ne (h.node₁_ne_node₂ ha hb)
      have hroot : root ∈ s.roots := by
        rcases hone with ⟨rfl, -⟩ | ⟨rfl, -⟩
        · exact mem_roots₁ ha
        · exact mem_roots₂ hb
      have hnew : s₁.newList = s.newList := by rw [hl.eq]
      refine ⟨⟨forest_link h.forest hl.adopts hroot hne ?_, shift_ended _, shift_ended _⟩,
        hl.adopts.same, ?_⟩
      · rw [perm_cons_iff_count]
        intro x
        have hx := hone.count x
        have hx₁ := count_shift s.src₁ x
        have hx₂ := count_shift s.src₂ x
        simp only [count_roots, ha, hb, hc, hnew, Option.toList_some, Option.toList_none,
          List.count_nil]
        omega
      · simp [pending, all_shift, all_of_node ha, all_of_node hb]
  | @linkCarry a b carry root other root' other' s₁ s₂ hc ha hb heq hone habove hl hone' hfair
      hl' =>
      have hrc : root ≠ carry := by
        rcases hone with ⟨rfl, -⟩ | ⟨rfl, -⟩
        · exact h.node₁_ne_carry ha hc
        · exact h.node₂_ne_carry hb hc
      have hnew : s₂.newList = s.newList := by rw [hl'.eq, hl.eq]
      have hmid := forest_between h hc ha hb hone hl
      refine ⟨⟨forest_link hmid hl'.adopts ?_ (hone'.ne hrc) ?_, shift_ended _, shift_ended _⟩,
        hl.adopts.same.trans hl'.adopts.same, ?_⟩
      · rcases hone' with ⟨rfl, -⟩ | ⟨rfl, -⟩
        · exact List.mem_cons_self
        · exact List.mem_cons_of_mem _ List.mem_cons_self
      · rw [perm_cons_iff_count]
        intro x
        have hx := hone'.count x
        have hx₁ := count_shift s.src₁ x
        have hx₂ := count_shift s.src₂ x
        simp only [count_roots, hnew, Option.toList_some, List.count_append]
        omega
      · simp [pending, all_shift, all_of_node ha, all_of_node hb, hc]

/-! ## The loop -/

/-- A round of the loop: the last tree is put on the new list, or the two halves. -/
inductive Rounds (cmp : K → K → ℤ) (mode : BinheapMode) (s s' : MergeState K V) : Prop where
  | last {carry : Addr} (carry_eq : s.carry = some carry) (node₁_eq : s.src₁.node = none)
      (node₂_eq : s.src₂.node = none) (mid : midState cmp mode s = none)
      (eq : s' = { s with newList := s.newList ++ [carry], carry := none })
  | halves {s₁ : MergeState K V} (mid : midState cmp mode s = some s₁)
      (settles : Settles cmp mode s s₁) (compares : Compares cmp mode s₁ s')

theorem Rounds.keeps (hr : Rounds cmp mode s s') (h : Linked s) : Keeps 1 s s' := by
  cases hr with
  | @last carry hc ha hb hmid heq =>
      subst heq
      refine ⟨⟨h.forest.congr (fun _ _ => rfl) (fun _ _ => rfl) ?_, h.ended₁, h.ended₂⟩,
        Heap.SameThrough.refl _, ?_⟩
      · rw [List.perm_iff_count]
        intro x
        simp only [count_roots, hc, Option.toList_some, Option.toList_none, List.count_nil,
          List.count_append]
        omega
      · simp [pending, hc, Nat.add_assoc]
  | halves hmid hst hcm =>
      have hk₁ := hst.keeps h
      have hk₂ := hcm.keeps hk₁.linked
      have hp₁ := hk₁.pending
      have hp₂ := hk₂.pending
      exact ⟨hk₂.linked, hk₁.same.trans hk₂.same, by omega⟩

theorem Settles.node_ne_none (hst : Settles cmp mode s s₁)
    (hsome : s.src₁.node ≠ none ∨ s.src₂.node ≠ none) :
    s₁.src₁.node ≠ none ∨ s₁.src₂.node ≠ none := by
  cases hst with
  | idle hc => exact hsome
  | link₁ hc ha heq hone habove hl => exact Or.inl (Option.some_ne_none _)
  | link₂ hc hb heq hone habove hl => exact Or.inr (Option.some_ne_none _)
  | swap₁ hc ha hlt hne => exact Or.inl (Option.some_ne_none _)
  | swap₂ hc hb hlt hne => exact Or.inr (Option.some_ne_none _)
  | keep hc hlt₁ hlt₂ hin => exact hsome

/-- As long as a tree is in hand, the round succeeds. -/
theorem mergeRound_spec (c : Comparator K) (mode : BinheapMode) (h : Linked s)
    (hdone : ¬ s.Done) :
    ∃ s', mergeRound c.cmp mode s = some s' ∧ Rounds c.cmp mode s s' := by
  cases hc : s.carry with
  | none =>
      have hsome : s.src₁.node ≠ none ∨ s.src₂.node ≠ none := by
        by_contra hno
        rw [not_or, not_not, not_not] at hno
        exact hdone ⟨hno.1, hno.2, hc⟩
      obtain ⟨s', hrun, hcm⟩ := compareNodes_spec c mode h hsome
      exact ⟨s', by simp [mergeRound, hc, hrun],
        .halves (by simp [midState, hc]) (.idle hc) hcm⟩
  | some carry =>
      rcases settleCarry_spec c mode h hc with ⟨ha, hb, hrun⟩ | ⟨hsome, s₁, hrun, hst⟩
      · exact ⟨_, by simp [mergeRound, hc, hrun],
          .last hc ha hb (by simp [midState, hc, hrun]) rfl⟩
      · obtain ⟨s', hrun', hcm⟩ := compareNodes_spec c mode (hst.keeps h).linked
          (hst.node_ne_none hsome)
        exact ⟨s', by simp [mergeRound, hc, hrun, hrun'],
          .halves (by simp [midState, hc, hrun]) hst hcm⟩

/-- The loop ends, with all trees on the new list. -/
theorem mergeLoop_spec (c : Comparator K) (mode : BinheapMode) :
    ∀ (fuel : ℕ) (s : MergeState K V), Linked s → s.pending.length < fuel →
      ∃ s', mergeLoop c.cmp mode fuel s = some s' ∧ Linked s' ∧ s'.pending = [] ∧
        SameItems s.nodes s'.nodes := by
  intro fuel
  induction fuel with
  | zero =>
      intro s _ hlt
      exact absurd hlt (Nat.not_lt_zero _)
  | succ fuel ih =>
      intro s h hlt
      by_cases hdone : s.Done
      · refine ⟨s, by simp [mergeLoop, hdone], h, ?_, Heap.SameThrough.refl _⟩
        obtain ⟨ha, hb, hc⟩ := hdone
        simp [pending, Source.all, ha, hb, hc, h.ended₁ ha, h.ended₂ hb]
      · obtain ⟨s₁, hround, hr⟩ := mergeRound_spec c mode h hdone
        have hk := hr.keeps h
        have hpend := hk.pending
        obtain ⟨s', hrun, h', hnil, hsame⟩ := ih s₁ hk.linked (by omega)
        refine ⟨s', ?_, h', hnil, hk.same.trans hsame⟩
        simp [mergeLoop, hdone, hround, hrun]

end MergeState

/-! ## Two heaps in one memory -/

section Joint

variable {bh₁ bh₂ : BinHeap K V} {a : Addr}

theorem jointNodes_left (ha : a ∈ bh₁.nodes.live) : jointNodes bh₁ bh₂ a = bh₁.nodes a := by
  obtain ⟨n, hn⟩ := Heap.exists_of_mem_live ha
  exact Heap.beside_left (Heap.lt_brk_of_eq_some hn) _ _

theorem jointNodes_right (bh₁ bh₂ : BinHeap K V) (a : Addr) :
    jointNodes bh₁ bh₂ (bh₁.nodes.shifted a) =
      (bh₂.nodes a).map (relocate bh₁.nodes.brk) :=
  Heap.beside_right _ _ _ a

theorem childrenOf_joint_left (ha : a ∈ bh₁.nodes.live) :
    childrenOf (jointNodes bh₁ bh₂) a = childrenOf bh₁.nodes a := by
  rw [childrenOf, childrenOf, jointNodes_left ha]

theorem childrenOf_joint_right (ha : a ∈ bh₂.nodes.live) :
    childrenOf (jointNodes bh₁ bh₂) (bh₁.nodes.shifted a) =
      (childrenOf bh₂.nodes a).map bh₁.nodes.shifted := by
  obtain ⟨n, hn⟩ := Heap.exists_of_mem_live ha
  rw [childrenOf, childrenOf, jointNodes_right, hn]
  rfl

/-- The nodes of both heaps form one forest. -/
theorem jointNodes_forest
    (h₁ : Forest bh₁.nodes.live bh₁.trees (parentOf bh₁.nodes) (childrenOf bh₁.nodes))
    (h₂ : Forest bh₂.nodes.live bh₂.trees (parentOf bh₂.nodes) (childrenOf bh₂.nodes)) :
    Forest (jointNodes bh₁ bh₂).live (bh₁.trees ++ bh₂.trees.map (bh₁.nodes.brk + ·))
      (parentOf (jointNodes bh₁ bh₂)) (childrenOf (jointNodes bh₁ bh₂)) := by
  rw [jointNodes, Heap.live_beside]
  apply Forest.union
  · apply h₁.congr _ _ (List.Perm.refl _)
    · intro x hx
      have hjoint : jointNodes bh₁ bh₂ x = bh₁.nodes x := jointNodes_left hx
      rw [← jointNodes, parentOf, parentOf, hjoint]
    · exact fun x hx => childrenOf_joint_left hx
  · apply h₂.map bh₁.nodes.shifted
    · intro x hx
      obtain ⟨n, hn⟩ := Heap.exists_of_mem_live hx
      rw [← jointNodes, parentOf, parentOf, jointNodes_right, hn]
      rfl
    · exact fun x hx => childrenOf_joint_right hx
  · exact Heap.disjoint_live_shifted _ _

end Joint

/-! ## The merge -/

variable {c : Comparator K} {mode : BinheapMode} {bh bh₁ bh₂ : BinHeap K V}

theorem mergeStart_linked (h₁ : Consistent c bh₁) (h₂ : Consistent c bh₂) :
    (mergeStart bh₁ bh₂).Linked := by
  refine ⟨?_, MergeState.shift_ended _, MergeState.shift_ended _⟩
  have hroots : (mergeStart bh₁ bh₂).roots =
      bh₁.trees ++ bh₂.trees.map (bh₁.nodes.brk + ·) := by
    simp [MergeState.roots, MergeState.pending, mergeStart, MergeState.start,
      MergeState.all_shift]
  rw [hroots]
  exact jointNodes_forest h₁.ordered.forest h₂.ordered.forest

theorem mergeStart_pending (bh₁ bh₂ : BinHeap K V) :
    (mergeStart bh₁ bh₂).pending.length < mergeFuel bh₁ bh₂ := by
  simp [MergeState.pending, mergeStart, MergeState.start, MergeState.all_shift, mergeFuel]

/-- The merge of two consistent heaps of the same mode. -/
theorem binheapMerge_spec (h₁ : Consistent c bh₁) (h₂ : Consistent c bh₂)
    (hmode : bh₁.mode = bh₂.mode) :
    ∃ s, binheapMerge c.cmp bh₁ bh₂ = some (some (mergeResult bh₁ bh₂ s)) ∧
      MergeState.mergeLoop c.cmp bh₁.mode (mergeFuel bh₁ bh₂) (mergeStart bh₁ bh₂) = some s ∧
      Forest s.nodes.live s.newList (parentOf s.nodes) (childrenOf s.nodes) ∧
      SameItems (jointNodes bh₁ bh₂) s.nodes ∧ s.src₁.trees = [] ∧ s.src₂.trees = [] := by
  obtain ⟨s, hloop, hlinked, hnil, hsame⟩ := MergeState.mergeLoop_spec c bh₁.mode
    (mergeFuel bh₁ bh₂) (mergeStart bh₁ bh₂) (mergeStart_linked h₁ h₂)
    (mergeStart_pending bh₁ bh₂)
  have hparts : s.src₁.trees = [] ∧ s.src₂.trees = [] := by
    simp only [MergeState.pending, Source.all, List.append_eq_nil_iff] at hnil
    exact ⟨hnil.1.1.2, hnil.1.2.2⟩
  have hforest := hlinked.forest
  rw [MergeState.roots, hnil, List.nil_append] at hforest
  refine ⟨s, ?_, hloop, hforest, hsame, hparts⟩
  rw [binheapMerge, if_neg (not_not.mpr hmode), hloop]
  rfl

/-- The nodes that a walk over a list of trees meets. -/
def allNodes (nodes : Heap (BinomialTreeNode K V)) (trees : List Addr) : List Addr :=
  trees.flatMap (subtree nodes nodes.brk)

/-- Merging two heaps of the same mode ends; the trees of the new heap hold every node
of both heaps exactly once, with its key and value, both lists are empty, and the counts
add up. -/
theorem merge_keeps_every_node (c : Comparator K) {mode : BinheapMode} {bh₁ bh₂ : BinHeap K V}
    {ops₁ ops₂ : List (BinheapOp K V)} {outs₁ outs₂ : List (ℤ × Option V)}
    (hrun₁ : runSteps (stepOp c.cmp) (binheapCreate mode) ops₁ = some (bh₁, outs₁))
    (hrun₂ : runSteps (stepOp c.cmp) (binheapCreate mode) ops₂ = some (bh₂, outs₂)) :
    ∃ w, binheapMerge c.cmp bh₁ bh₂ = some (some w) ∧
      (allNodes w.nodes (w.fields .merged).trees).Nodup ∧
      (allNodes w.nodes (w.fields .merged).trees).Perm (allNodes bh₁.nodes bh₁.trees ++
        (allNodes bh₂.nodes bh₂.trees).map (bh₁.nodes.brk + ·)) ∧
      (∀ a ∈ allNodes bh₁.nodes bh₁.trees,
        (w.nodes a).map item = (bh₁.nodes a).map item) ∧
      (∀ a ∈ allNodes bh₂.nodes bh₂.trees,
        (w.nodes (bh₁.nodes.brk + a)).map item = (bh₂.nodes a).map item) ∧
      (w.fields .first).trees = [] ∧ (w.fields .second).trees = [] ∧
      (w.fields .merged).count = bh₁.count + bh₂.count := by
  obtain ⟨h₁, hmode₁⟩ := consistent_of_run hrun₁
  obtain ⟨h₂, hmode₂⟩ := consistent_of_run hrun₂
  obtain ⟨s, hmerge, -, hforest, hsame, hnil₁, hnil₂⟩ :=
    binheapMerge_spec h₁ h₂ (hmode₁.trans hmode₂.symm)
  have hwalk := flatMap_subtree_perm hforest
  have hwalk₁ := flatMap_subtree_perm h₁.ordered.forest
  have hwalk₂ := flatMap_subtree_perm h₂.ordered.forest
  refine ⟨_, hmerge, hwalk.nodup_iff.mpr s.nodes.live.nodup_toList, ?_, ?_, ?_, hnil₁, hnil₂,
    rfl⟩
  · have hlive : s.nodes.live.toList.Perm
        (bh₁.nodes.live.toList ++ bh₂.nodes.live.toList.map (bh₁.nodes.brk + ·)) := by
      rw [← Multiset.coe_eq_coe, ← Multiset.coe_add, ← Multiset.map_coe, Finset.coe_toList,
        Finset.coe_toList, Finset.coe_toList, hsame.live_eq, jointNodes, Heap.live_beside,
        ← Finset.disjUnion_eq_union _ _ (Heap.disjoint_live_shifted _ _)]
      rfl
    exact hwalk.trans (hlive.trans ((hwalk₁.append (hwalk₂.map _)).symm))
  · intro a ha
    have ha' := Finset.mem_toList.mp (hwalk₁.mem_iff.mp ha)
    exact (hsame a).trans (by rw [jointNodes_left ha'])
  · intro a _
    have hright := congrArg (Option.map item) (jointNodes_right bh₁ bh₂ a)
    rw [Option.map_map] at hright
    exact (hsame (bh₁.nodes.brk + a)).trans hright

/-- Two heaps after insertions and a deletion each. -/
def mergedOps₁ : List (BinheapOp ℕ Unit) :=
  [.insert 4 (), .insert 7 (), .insert 1 (), .insert 9 (), .insert 3 (), .deleteMaximum]

def mergedOps₂ : List (BinheapOp ℕ Unit) :=
  [.insert 2 (), .insert 8 (), .insert 6 (), .insert 5 (), .deleteMinimum]

theorem merge_keeps_every_node_example :
    ∃ bh₁ outs₁ bh₂ outs₂ w,
      runSteps (stepOp natComparator.cmp) (binheapCreate .max) mergedOps₁ = some (bh₁, outs₁) ∧
      runSteps (stepOp natComparator.cmp) (binheapCreate .max) mergedOps₂ = some (bh₂, outs₂) ∧
      binheapMerge natComparator.cmp bh₁ bh₂ = some (some w) ∧
      (allNodes w.nodes (w.fields .merged).trees).Nodup ∧
      (w.fields .merged).count = bh₁.count + bh₂.count := by
  have hsome₁ : (runSteps (stepOp natComparator.cmp) (binheapCreate .max) mergedOps₁).isSome := by
    decide
  have hsome₂ : (runSteps (stepOp natComparator.cmp) (binheapCreate .max) mergedOps₂).isSome := by
    decide
  obtain ⟨⟨bh₁, outs₁⟩, hrun₁⟩ := Option.isSome_iff_exists.mp hsome₁
  obtain ⟨⟨bh₂, outs₂⟩, hrun₂⟩ := Option.isSome_iff_exists.mp hsome₂
  obtain ⟨w, hmerge, hnodup, -, -, -, -, -, hcount⟩ :=
    merge_keeps_every_node natComparator.toComparator hrun₁ hrun₂
  exact ⟨bh₁, outs₁, bh₂, outs₂, w, hrun₁, hrun₂, hmerge, hnodup, hcount⟩

end BinHeap
end LibHL
