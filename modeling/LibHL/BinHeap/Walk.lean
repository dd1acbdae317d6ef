import LibHL.BinHeap.ChangeKey

/-!
# Walking a binomial heap

The walk visits a node before its children, and removes it after them if the callback
says so.  It keeps its place in an array by an index, while a removal shifts what is behind
the removed entry and puts the children of the removed node at the end.  So a node is
missed or met again as soon as a removed node had a sibling behind it, or leaves more than
one child.
-/

namespace LibHL
namespace BinHeap

variable {K V : Type} (cmp : K → K → ℤ)

/-- `binheap_walk_callback_t`.  What its private data hold is determined by the items that
it has been called for. -/
abbrev WalkCallback (K V : Type) := List (K × V) → K → V → ℤ

/-- The heap during a walk, the counter of the visits, and the items that the callback has
been called for. -/
structure WalkState (K V : Type) where
  bh : BinHeap K V
  count : ℤ
  calls : List (K × V)

/-- The loop over the children of a node, from an index on.  The second result tells if the
walk goes on. -/
def walkChildren (walk : WalkState K V → Addr → Option (WalkState K V × Bool)) (node : Addr) :
    ℕ → WalkState K V → ℕ → Option (WalkState K V × Bool)
  | 0, _, _ => none
  | fuel + 1, s, i => do
      let n ← s.bh.nodes node
      match n.children[i]? with
      | none => some (s, true)
      | some child => do
          let (s, proceed) ← walk s child
          if proceed then walkChildren walk node fuel s (i + 1)
          else some (s, false)

/-- What an answer of the callback means: if the walk proceeds, and if the node is
removed. -/
def decodeAnswer (rc : ℤ) : Bool × Bool :=
  if rc = -2 then (false, true)
  else if rc = -1 then (true, true)
  else if rc = 0 then (false, false)
  else if rc = 1 then (true, false)
  else (false, false)

/-- Remove a node that has been walked. -/
def removeWalked (s : WalkState K V) (node : Addr) : Option (WalkState K V) := do
  let bh ← binomialTreeNodeDestroy cmp s.bh node 0
  some { s with bh := bh }

/-- `binomial_tree_walk`.  The fuel bounds the depth of the recursion and the rounds of its
loops. -/
def binomialTreeWalk (cb : WalkCallback K V) :
    ℕ → WalkState K V → Addr → Option (WalkState K V × Bool)
  | 0, _, _ => none
  | fuel + 1, s, node => do
      let n ← s.bh.nodes node
      let answer := decodeAnswer (cb s.calls n.key n.value)
      let s := { s with count := s.count + 1, calls := s.calls ++ [item n] }
      let (s, proceed) ←
        if answer.1 then walkChildren (binomialTreeWalk cb fuel) node fuel s 0
        else some (s, false)
      if answer.2 then do
        let s ← removeWalked cmp s node
        some (s, proceed)
      else some (s, proceed)

/-- The loop over the trees. -/
def walkTrees (cb : WalkCallback K V) (depth : ℕ) :
    ℕ → WalkState K V → ℕ → Option (WalkState K V)
  | 0, _, _ => none
  | fuel + 1, s, i =>
      match s.bh.trees[i]? with
      | none => some s
      | some curtree => do
          let (s, proceed) ← binomialTreeWalk cmp cb depth s curtree
          if proceed then walkTrees cb depth fuel s (i + 1)
          else some s

/-- `binheap_walk`; the count is the return value. -/
def binheapWalk (cb : WalkCallback K V) (fuel : ℕ) (bh : BinHeap K V) : Option (WalkState K V) :=
  walkTrees cmp cb fuel fuel { bh := bh, count := 0, calls := [] } 0

/-! ## Which nodes are removed -/

/-- The items of a list of nodes. -/
def itemsOf (nodes : Heap (BinomialTreeNode K V)) (l : List Addr) : List (K × V) :=
  l.filterMap fun a => (nodes a).map item

/-- The nodes, each before its children, the trees in order. -/
def preorder (bh : BinHeap K V) : List Addr := bh.trees.flatMap (subtree bh.nodes bh.nodes.brk)

/-- The callback has a node removed, if it is called for the nodes in preorder. -/
def removedBy (cb : WalkCallback K V) (bh : BinHeap K V) (a : Addr) : Bool :=
  match bh.nodes a with
  | none => false
  | some n =>
      cb (itemsOf bh.nodes ((preorder bh).takeWhile fun b => b ≠ a)) n.key n.value = -1

variable (removed : Addr → Bool) (nodes : Heap (BinomialTreeNode K V))

/-- How many nodes are left of a list of siblings once they have been walked, if none of
them was removed but the last one, which leaves its own children. -/
def leftOf (left : Addr → ℕ) : List Addr → ℕ
  | [] => 0
  | [d] => if removed d then left d else 1
  | _ :: d :: l => 1 + leftOf left (d :: l)

/-- The number of children that a node has left after they have been walked. -/
def childrenLeft : ℕ → Addr → ℕ
  | 0, _ => 0
  | depth + 1, a => leftOf removed (childrenLeft depth) (childrenOf nodes a)

/-- Among siblings only the last one is removed, and only if it leaves at most one child. -/
def TidyAmong (left : Addr → ℕ) : List Addr → Prop
  | [] => True
  | [d] => removed d = true → left d ≤ 1
  | d :: e :: l => removed d = false ∧ TidyAmong left (e :: l)

/-- It is so among the children of a node, and among those of the nodes under it. -/
def TidyBelow : ℕ → Addr → Prop
  | 0, _ => True
  | depth + 1, a => TidyAmong removed (childrenLeft removed nodes depth) (childrenOf nodes a) ∧
      ∀ d ∈ childrenOf nodes a, TidyBelow depth d

/-- A root that leaves no child is removed from the end of the list of trees only. -/
def TidyRoots (left : Addr → ℕ) : List Addr → Prop
  | [] => True
  | [_] => True
  | r :: e :: l => (removed r = true → 0 < left r) ∧ TidyRoots left (e :: l)

/-- No removal moves anything under the index of the walk. -/
def Tidy (bh : BinHeap K V) : Prop :=
  TidyRoots removed (childrenLeft removed bh.nodes bh.nodes.brk) bh.trees ∧
    ∀ r ∈ bh.trees, TidyBelow removed bh.nodes bh.nodes.brk r

instance decidableTidyAmong (left : Addr → ℕ) : ∀ l, Decidable (TidyAmong removed left l)
  | [] => isTrue trivial
  | [_] => inferInstanceAs (Decidable (_ → _))
  | _ :: e :: l =>
      have := decidableTidyAmong left (e :: l)
      inferInstanceAs (Decidable (_ ∧ _))

instance decidableTidyBelow : ∀ (depth : ℕ) (a : Addr),
    Decidable (TidyBelow removed nodes depth a)
  | 0, _ => isTrue trivial
  | depth + 1, _ =>
      have := decidableTidyBelow depth
      inferInstanceAs (Decidable (_ ∧ _))

instance decidableTidyRoots (left : Addr → ℕ) : ∀ l, Decidable (TidyRoots removed left l)
  | [] => isTrue trivial
  | [_] => isTrue trivial
  | _ :: e :: l =>
      have := decidableTidyRoots left (e :: l)
      inferInstanceAs (Decidable (_ ∧ _))

instance decidableTidy (bh : BinHeap K V) : Decidable (Tidy removed bh) :=
  inferInstanceAs (Decidable (_ ∧ _))

/-! ## The answers -/

variable {removed nodes}

/-- The callback answers for a list of nodes, one after the other, as it is said which of
them are removed. -/
def Answers (cb : WalkCallback K V) (nodes : Heap (BinomialTreeNode K V))
    (removed : Addr → Bool) : List (K × V) → List Addr → Prop
  | _, [] => True
  | calls, a :: l =>
      (∀ n, nodes a = some n → cb calls n.key n.value = if removed a then -1 else 1) ∧
        Answers cb nodes removed (calls ++ itemsOf nodes [a]) l

theorem itemsOf_append (l₁ l₂ : List Addr) :
    itemsOf nodes (l₁ ++ l₂) = itemsOf nodes l₁ ++ itemsOf nodes l₂ :=
  List.filterMap_append

theorem answers_append {cb : WalkCallback K V} {l₂ : List Addr} : ∀ {l₁ : List Addr}
    {calls : List (K × V)}, Answers cb nodes removed calls (l₁ ++ l₂) ↔
      Answers cb nodes removed calls l₁ ∧
        Answers cb nodes removed (calls ++ itemsOf nodes l₁) l₂ := by
  intro l₁
  induction l₁ with
  | nil =>
      intro calls
      have hnil : calls ++ itemsOf nodes [] = calls := List.append_nil calls
      rw [hnil]
      exact (iff_of_eq (true_and _)).symm
  | cons a l₁ ih =>
      intro calls
      have hitems : itemsOf nodes (a :: l₁) = itemsOf nodes [a] ++ itemsOf nodes l₁ :=
        itemsOf_append [a] l₁
      rw [List.cons_append, Answers, Answers, ih, hitems, List.append_assoc, and_assoc]

/-- A callback that always goes on answers for the preorder. -/
theorem answers_preorder {cb : WalkCallback K V} {bh : BinHeap K V}
    (hcb : ∀ calls k v, cb calls k v = 1 ∨ cb calls k v = -1) (hnodup : (preorder bh).Nodup) :
    Answers cb bh.nodes (removedBy cb bh) [] (preorder bh) := by
  have hsuffix : ∀ l pre, preorder bh = pre ++ l →
      Answers cb bh.nodes (removedBy cb bh) (itemsOf bh.nodes pre) l := by
    intro l
    induction l with
    | nil => exact fun _ _ => trivial
    | cons a l ih =>
        intro pre hpre
        refine ⟨fun n hn => ?_, ?_⟩
        · have hbefore : (preorder bh).takeWhile (fun b => decide (b ≠ a)) = pre := by
            rw [hpre] at hnodup ⊢
            have hnot : ∀ b ∈ pre, decide (b ≠ a) = true := by
              intro b hb
              rw [decide_eq_true_iff]
              rintro rfl
              exact (List.nodup_append.mp hnodup).2.2 b hb b List.mem_cons_self rfl
            rw [List.takeWhile_append_of_pos hnot, List.takeWhile_cons_of_neg (by simp),
              List.append_nil]
          have hremoved : removedBy cb bh a =
              decide (cb (itemsOf bh.nodes pre) n.key n.value = -1) := by
            simp only [removedBy, hn, hbefore]
          rw [hremoved]
          rcases hcb (itemsOf bh.nodes pre) n.key n.value with hone | hminus
          · simp [hone]
          · simp [hminus]
        · rw [← itemsOf_append]
          exact ih (pre ++ [a]) (by rw [hpre, List.append_assoc]; rfl)
  exact hsuffix (preorder bh) [] rfl

/-! ## What the walk of a tree does -/

variable {c : Comparator K} {bh bh' bh'' : BinHeap K V} {mode : BinheapMode}
  {nodes' : Heap (BinomialTreeNode K V)} {trees l l' : List Addr} {a b p : Addr}
  {n : BinomialTreeNode K V} {rank : Addr → ℕ}

/-- Some nodes are as they were at first. -/
def Intact (nodes₀ nodes : Heap (BinomialTreeNode K V)) (l : List Addr) : Prop :=
  ∀ x ∈ l, x ∈ nodes.live ∧ childrenOf nodes x = childrenOf nodes₀ x ∧
    (nodes x).map item = (nodes₀ x).map item

/-- Exactly the removed ones among some nodes are gone, and the other nodes have kept their
items. -/
structure Prunes (removed : Addr → Bool) (bh bh' : BinHeap K V) (l : List Addr) : Prop where
  mode : bh'.mode = bh.mode
  live : ∀ x, x ∈ bh'.nodes.live ↔ x ∈ bh.nodes.live ∧ ¬ (x ∈ l ∧ removed x = true)
  items : ∀ x ∈ bh'.nodes.live, (bh'.nodes x).map item = (bh.nodes x).map item

theorem Prunes.refl (bh : BinHeap K V) : Prunes removed bh bh [] where
  mode := rfl
  live := fun _ => ⟨fun hx => ⟨hx, fun h => nomatch h.1⟩, fun h => h.1⟩
  items := fun _ _ => rfl

theorem Prunes.trans (h₁ : Prunes removed bh bh' l) (h₂ : Prunes removed bh' bh'' l') :
    Prunes removed bh bh'' (l ++ l') where
  mode := h₂.mode.trans h₁.mode
  live := by
    intro x
    rw [h₂.live, h₁.live, List.mem_append]
    constructor
    · rintro ⟨⟨hx, hl⟩, hl'⟩
      refine ⟨hx, ?_⟩
      rintro ⟨hmem | hmem, hrem⟩
      · exact hl ⟨hmem, hrem⟩
      · exact hl' ⟨hmem, hrem⟩
    · rintro ⟨hx, hnot⟩
      exact ⟨⟨hx, fun h => hnot ⟨Or.inl h.1, h.2⟩⟩, fun h => hnot ⟨Or.inr h.1, h.2⟩⟩
  items := fun x hx => (h₂.items x hx).trans (h₁.items x ((h₂.live x).mp hx).1)

theorem Prunes.congr (h : Prunes removed bh bh' l)
    (hl : ∀ x, removed x = true → (x ∈ l ↔ x ∈ l')) : Prunes removed bh bh' l' where
  mode := h.mode
  live := by
    intro x
    rw [h.live]
    constructor
    · rintro ⟨hx, hnot⟩
      exact ⟨hx, fun hand => hnot ⟨(hl x hand.2).mpr hand.1, hand.2⟩⟩
    · rintro ⟨hx, hnot⟩
      exact ⟨hx, fun hand => hnot ⟨(hl x hand.2).mp hand.1, hand.2⟩⟩
  items := h.items

/-- Nodes that are apart from the walked ones stay intact, if they keep their children. -/
theorem Intact.prunes {nodes₀ : Heap (BinomialTreeNode K V)} (h : Intact nodes₀ bh.nodes l')
    (hp : Prunes removed bh bh' l) (hapart : ∀ x ∈ l', x ∉ l)
    (hkids : ∀ x ∈ l', childrenOf bh'.nodes x = childrenOf bh.nodes x) :
    Intact nodes₀ bh'.nodes l' := by
  intro x hx
  obtain ⟨hlive, hchildren, hitem⟩ := h x hx
  have hlive' := (hp.live x).mpr ⟨hlive, fun hmem => hapart x hx hmem.1⟩
  exact ⟨hlive', (hkids x hx).trans hchildren, (hp.items x hlive').trans hitem⟩

/-- What becomes of a removed node: its parent has the children that were left, or they are
in the list of trees in its place, one above the others. -/
structure WalkedAway (bh bh' : BinHeap K V) (a : Addr) (tree : List Addr) (left : ℕ) : Prop where
  inner : ∀ p ∈ bh.nodes.live, p ∉ tree → a ∈ childrenOf bh.nodes p → bh'.trees = bh.trees ∧
    (∃ rs, childrenOf bh'.nodes p = (childrenOf bh.nodes p).erase a ++ rs ∧ rs.length = left ∧
      ∀ y ∈ rs, y ∈ tree) ∧
    ∀ x, x ∉ tree → x ≠ p → childrenOf bh'.nodes x = childrenOf bh.nodes x
  root : a ∈ bh.trees → (∀ x, x ∉ tree → childrenOf bh'.nodes x = childrenOf bh.nodes x) ∧
    ((left = 0 ∧ bh'.trees = bh.trees.erase a) ∨
      (0 < left ∧ ∃ e, bh'.trees = (bh.trees.erase a).insertIdx (bh.trees.idxOf a) e))

/-- What the walk of a tree leaves. -/
structure Walked (c : Comparator K) (removed : Addr → Bool) (bh bh' : BinHeap K V) (a : Addr)
    (tree : List Addr) (left : ℕ) : Prop where
  consistent : Consistent c bh'
  prunes : Prunes removed bh bh' tree
  stays : removed a = false → bh'.trees = bh.trees ∧
    ∀ x, x ∉ tree → childrenOf bh'.nodes x = childrenOf bh.nodes x
  away : removed a = true → WalkedAway bh bh' a tree left

/-- The removal of a node after the nodes under it have been walked. -/
theorem removeWalked_spec (s : WalkState K V) (tree : List Addr) (h : Consistent c s.bh)
    (hn : s.bh.nodes a = some n) (hkids : ∀ y ∈ childrenOf s.bh.nodes a, y ∈ tree)
    (ha : a ∈ tree) (hrem : removed a = true) :
    ∃ bh', removeWalked c.cmp s a = some { s with bh := bh' } ∧ Consistent c bh' ∧
      Prunes removed s.bh bh' [a] ∧
      WalkedAway s.bh bh' a tree (childrenOf s.bh.nodes a).length := by
  obtain ⟨bh', nodes', hrun, h', hmode, -, hnodes, hs, hover⟩ :=
    binomialTreeNodeDestroy_handsOver h hn (fun _ hzero => absurd rfl hzero)
  have halive := Heap.mem_live_of_eq_some hn
  have hlive : ∀ x, x ∈ bh'.nodes.live ↔ x ∈ s.bh.nodes.live ∧ x ≠ a := by
    intro x
    rw [hnodes, Heap.live_kill, hs.live_eq, Finset.mem_erase, and_comm]
  have hread : ∀ x, x ≠ a → bh'.nodes x = nodes' x := by
    intro x hx
    rw [hnodes, Heap.kill_apply, if_neg hx]
  have hchildren : ∀ x, x ≠ a → childrenOf bh'.nodes x = childrenOf nodes' x := by
    intro x hx
    rw [childrenOf, childrenOf, hread x hx]
  refine ⟨bh', by rw [removeWalked, hrun]; rfl, h', ⟨hmode, ?_, ?_⟩, ?_, ?_⟩
  · intro x
    rw [hlive, List.mem_singleton]
    constructor
    · rintro ⟨hx, hxa⟩
      exact ⟨hx, fun hand => hxa hand.1⟩
    · rintro ⟨hx, hnot⟩
      exact ⟨hx, fun hxa => hnot ⟨hxa, hxa ▸ hrem⟩⟩
  · intro x hx
    rw [hread x ((hlive x).mp hx).2]
    exact hs x
  · intro p hp hpt hap
    have hpar := h.ordered.forest.par_of_kid hp hap
    have hpa : p ≠ a := fun heq => hpt (heq ▸ ha)
    have hnotroot : a ∉ s.bh.trees := by
      intro hroot
      rw [h.ordered.forest.par_of_root hroot] at hpar
      cases hpar
    cases hover with
    | leafRoot hroot => exact absurd hroot hnotroot
    | innerRoot d hroot => exact absurd hroot hnotroot
    | inner q hq htrees hnew hother =>
        rw [hpar] at hq
        cases hq
        refine ⟨htrees, ⟨childrenOf s.bh.nodes a, ?_, rfl, hkids⟩, ?_⟩
        · rw [hchildren p hpa, hnew]
        · intro x hxt hxp
          rw [hchildren x (fun heq => hxt (heq ▸ ha)), hother x hxp]
  · intro hroot
    cases hover with
    | inner q hq =>
        rw [h.ordered.forest.par_of_root hroot] at hq
        cases hq
    | leafRoot _ hleaf htrees hother =>
        refine ⟨fun x hxt => ?_, Or.inl ⟨by rw [hleaf]; rfl, htrees⟩⟩
        rw [hchildren x (fun heq => hxt (heq ▸ ha)), hother x]
    | innerRoot d _ hd htrees _ hother =>
        refine ⟨fun x hxt => ?_, Or.inr ⟨List.length_pos_of_mem hd, d, htrees⟩⟩
        rw [hchildren x (fun heq => hxt (heq ▸ ha)),
          hother x (fun heq => hxt (heq ▸ hkids d hd))]

section Trees

variable (c) (cb : WalkCallback K V) (removed) (nodes₀ : Heap (BinomialTreeNode K V))

/-- The walk of a tree that is as it was at first visits each of its nodes once, and goes
on. -/
def WalksTree (depth fuel : ℕ) (a : Addr) : Prop :=
  ∀ s : WalkState K V, Consistent c s.bh → Intact nodes₀ s.bh.nodes (subtree nodes₀ depth a) →
    Answers cb nodes₀ removed s.calls (subtree nodes₀ depth a) →
    ∃ bh', binomialTreeWalk c.cmp cb fuel s a = some
        ({ bh := bh'
           count := s.count + (subtree nodes₀ depth a).length
           calls := s.calls ++ itemsOf nodes₀ (subtree nodes₀ depth a) }, true) ∧
      Walked c removed s.bh bh' a (subtree nodes₀ depth a) (childrenLeft removed nodes₀ depth a)

/-- What the loop over some last children of a node leaves, where `done` are those before
them. -/
structure WalkedChildren (depth : ℕ) (a : Addr) (done rest : List Addr)
    (bh bh' : BinHeap K V) : Prop where
  consistent : Consistent c bh'
  prunes : Prunes removed bh bh' (rest.flatMap (subtree nodes₀ depth))
  trees : bh'.trees = bh.trees
  other : ∀ x, x ∉ rest.flatMap (subtree nodes₀ depth) → x ≠ a →
    childrenOf bh'.nodes x = childrenOf bh.nodes x
  children : ∃ rs, childrenOf bh'.nodes a = done ++ rs ∧
    rs.length = leftOf removed (childrenLeft removed nodes₀ depth) rest ∧
    ∀ y ∈ rs, y ∈ rest.flatMap (subtree nodes₀ depth)

variable {c cb removed nodes₀} {depth : ℕ}

/-- The loop over the children of a node. -/
theorem walkChildren_spec {fuel' : ℕ} : ∀ (rest done : List Addr) (s : WalkState K V) (fuel : ℕ),
    rest.length < fuel → (∀ d ∈ rest, WalksTree removed c cb nodes₀ depth fuel' d) →
    (∀ d ∈ rest, d ∈ subtree nodes₀ depth d) →
    TidyAmong removed (childrenLeft removed nodes₀ depth) rest →
    (rest.flatMap (subtree nodes₀ depth)).Nodup → a ∉ rest.flatMap (subtree nodes₀ depth) →
    Consistent c s.bh → a ∈ s.bh.nodes.live → childrenOf s.bh.nodes a = done ++ rest →
    Intact nodes₀ s.bh.nodes (rest.flatMap (subtree nodes₀ depth)) →
    Answers cb nodes₀ removed s.calls (rest.flatMap (subtree nodes₀ depth)) →
    ∃ bh', walkChildren (binomialTreeWalk c.cmp cb fuel') a fuel s done.length = some
        ({ bh := bh'
           count := s.count + (rest.flatMap (subtree nodes₀ depth)).length
           calls := s.calls ++ itemsOf nodes₀ (rest.flatMap (subtree nodes₀ depth)) }, true) ∧
      WalkedChildren removed c nodes₀ depth a done rest s.bh bh' := by
  intro rest
  induction rest with
  | nil =>
      intro done s fuel hfuel _ _ _ _ _ h ha hkids _ _
      obtain ⟨n, hn⟩ := Heap.exists_of_mem_live ha
      rw [childrenOf_eq hn, List.append_nil] at hkids
      cases fuel with
      | zero => exact absurd hfuel (Nat.not_lt_zero _)
      | succ fuel =>
          refine ⟨s.bh, ?_, h, Prunes.refl _, rfl, fun _ _ _ => rfl, [], ?_, rfl, nofun⟩
          · simp [walkChildren, hn, hkids, itemsOf]
          · rw [childrenOf_eq hn, hkids, List.append_nil]
  | cons d rest ih =>
      intro done s fuel hfuel hwalks hself htidy hnodup hnot h ha hkids hintact hanswers
      obtain ⟨n, hn⟩ := Heap.exists_of_mem_live ha
      have hchild : n.children[done.length]? = some d := by
        rw [← childrenOf_eq hn, hkids, List.getElem?_append_right (Nat.le_refl _), Nat.sub_self]
        rfl
      rw [List.flatMap_cons] at hnodup hnot hintact hanswers
      obtain ⟨hnodup₁, hnodup₂, hdisjoint⟩ := List.nodup_append.mp hnodup
      rw [answers_append] at hanswers
      have hnot₁ : a ∉ subtree nodes₀ depth d := fun hmem => hnot (List.mem_append_left _ hmem)
      have hnot₂ : a ∉ rest.flatMap (subtree nodes₀ depth) :=
        fun hmem => hnot (List.mem_append_right _ hmem)
      obtain ⟨bh₁, hrun, hwalked⟩ := hwalks d List.mem_cons_self s h
        (fun x hx => hintact x (List.mem_append_left _ hx)) hanswers.1
      have halive : a ∈ bh₁.nodes.live :=
        (hwalked.prunes.live a).mpr ⟨ha, fun hmem => hnot₁ hmem.1⟩
      have hapart : ∀ x ∈ rest.flatMap (subtree nodes₀ depth), x ∉ subtree nodes₀ depth d :=
        fun x hx hx' => hdisjoint x hx' x hx rfl
      cases fuel with
      | zero => exact absurd hfuel (Nat.not_lt_zero _)
      | succ fuel =>
      rw [List.length_cons, Nat.succ_lt_succ_iff] at hfuel
      by_cases hrem : removed d = true
      · -- The last child is removed, and nothing is left to visit.
        cases rest with
        | cons e rest => exact absurd (htidy.1.symm.trans hrem) nofun
        | nil =>
            have hle := htidy hrem
            have hdmem : d ∈ childrenOf s.bh.nodes a := by
              rw [hkids]
              exact List.mem_append_right _ List.mem_cons_self
            obtain ⟨htrees, ⟨rs, hrs, hlen, hin⟩, hother⟩ :=
              (hwalked.away hrem).inner a ha hnot₁ hdmem
            have hdone : (childrenOf s.bh.nodes a).erase d = done := by
              have hkidsNodup := h.ordered.forest.kidsNodup a ha
              rw [hkids] at hkidsNodup ⊢
              have hnotdone : d ∉ done := fun hmem =>
                (List.nodup_append.mp hkidsNodup).2.2 d hmem d List.mem_cons_self rfl
              rw [List.erase_append_right _ hnotdone, List.erase_cons_head, List.append_nil]
            rw [hdone] at hrs
            obtain ⟨m, hm⟩ := Heap.exists_of_mem_live halive
            have hend : m.children[done.length + 1]? = none := by
              rw [← childrenOf_eq hm, hrs, List.getElem?_eq_none_iff, List.length_append]
              omega
            rw [List.flatMap_cons, List.flatMap_nil, List.append_nil]
            refine ⟨bh₁, ?_, hwalked.consistent, ?_, htrees, ?_, rs, hrs, ?_, ?_⟩
            · cases fuel with
              | zero => exact absurd hfuel (Nat.not_lt_zero _)
              | succ fuel => simp [walkChildren, hn, hchild, hrun, hm, hend]
            · rw [List.flatMap_cons, List.flatMap_nil, List.append_nil]
              exact hwalked.prunes
            · intro x hx hxa
              rw [List.flatMap_cons, List.flatMap_nil, List.append_nil] at hx
              exact hother x hx hxa
            · rw [leftOf, if_pos hrem, hlen]
            · rw [List.flatMap_cons, List.flatMap_nil, List.append_nil]
              exact hin
      · -- The child stays, and the loop goes on behind it.
        rw [Bool.not_eq_true] at hrem
        obtain ⟨htrees, hsame⟩ := hwalked.stays hrem
        have htidy' : TidyAmong removed (childrenLeft removed nodes₀ depth) rest := by
          cases rest with
          | nil => trivial
          | cons e rest => exact htidy.2
        have hkids₁ : childrenOf bh₁.nodes a = (done ++ [d]) ++ rest := by
          rw [hsame a hnot₁, hkids, List.append_assoc]
          rfl
        have hintact₁ : Intact nodes₀ bh₁.nodes (rest.flatMap (subtree nodes₀ depth)) := by
          have hlater : Intact nodes₀ s.bh.nodes (rest.flatMap (subtree nodes₀ depth)) :=
            fun x hx => hintact x (List.mem_append_right _ hx)
          exact hlater.prunes hwalked.prunes hapart fun x hx => hsame x (hapart x hx)
        obtain ⟨bh', hrun', hdone⟩ := ih (done ++ [d])
          { bh := bh₁
            count := s.count + (subtree nodes₀ depth d).length
            calls := s.calls ++ itemsOf nodes₀ (subtree nodes₀ depth d) }
          fuel hfuel (fun e he => hwalks e (List.mem_cons_of_mem d he))
          (fun e he => hself e (List.mem_cons_of_mem d he)) htidy' hnodup₂ hnot₂
          hwalked.consistent halive hkids₁ hintact₁ hanswers.2
        refine ⟨bh', ?_, hdone.consistent, ?_, hdone.trees.trans htrees, ?_, ?_⟩
        · rw [List.length_append, List.length_singleton] at hrun'
          simp only [walkChildren, hn, hchild, hrun, Option.bind_eq_bind, Option.bind_some,
            if_true, hrun', List.flatMap_cons, List.length_append, itemsOf_append,
            List.append_assoc, Int.natCast_add, Int.add_assoc]
        · rw [List.flatMap_cons]
          exact hwalked.prunes.trans hdone.prunes
        · intro x hx hxa
          rw [List.flatMap_cons, List.mem_append, not_or] at hx
          rw [hdone.other x hx.2 hxa, hsame x hx.1]
        · obtain ⟨rs, hrs, hlen, hin⟩ := hdone.children
          refine ⟨d :: rs, by rw [hrs, List.append_assoc]; rfl, ?_, ?_⟩
          · cases rest with
            | nil => rw [List.length_cons, hlen, leftOf, leftOf, hrem]; rfl
            | cons e rest => rw [List.length_cons, hlen, leftOf, Nat.add_comm]
          · intro y hy
            rw [List.flatMap_cons, List.mem_append]
            rcases List.mem_cons.mp hy with rfl | hy
            · exact Or.inl (hself y List.mem_cons_self)
            · exact Or.inr (hin y hy)

/-- The children of a node have been walked, and then the node is removed. -/
theorem WalkedChildren.walked_away {bh₁ bh₂ : BinHeap K V} {kids : List Addr}
    (h₁ : WalkedChildren removed c nodes₀ depth a [] kids bh bh₁) (h₂ : Consistent c bh₂)
    (hrem : removed a = true) (hprunes : Prunes removed bh₁ bh₂ [a])
    (haway : WalkedAway bh₁ bh₂ a (a :: kids.flatMap (subtree nodes₀ depth))
      (childrenOf bh₁.nodes a).length) :
    Walked c removed bh bh₂ a (a :: kids.flatMap (subtree nodes₀ depth))
      (leftOf removed (childrenLeft removed nodes₀ depth) kids) := by
  obtain ⟨rs, hrs, hlen, -⟩ := h₁.children
  rw [hrs, List.nil_append, hlen] at haway
  refine ⟨h₂, ?_, fun hstays => absurd (hstays.symm.trans hrem) nofun, fun _ => ⟨?_, ?_⟩⟩
  · refine (h₁.prunes.trans hprunes).congr fun x _ => ?_
    rw [List.mem_append, List.mem_singleton, List.mem_cons, or_comm]
  · intro p hp hpt hap
    rw [List.mem_cons, not_or] at hpt
    have hkids := h₁.other p hpt.2 hpt.1
    have hp₁ : p ∈ bh₁.nodes.live := (h₁.prunes.live p).mpr ⟨hp, fun hmem => hpt.2 hmem.1⟩
    obtain ⟨htrees, ⟨ls, hls, hlsLen, hin⟩, hother⟩ :=
      haway.inner p hp₁ (by rw [List.mem_cons, not_or]; exact hpt) (by rwa [hkids])
    refine ⟨htrees.trans h₁.trees, ⟨ls, by rw [hls, hkids], hlsLen, hin⟩, fun x hx hxp => ?_⟩
    rw [hother x hx hxp]
    rw [List.mem_cons, not_or] at hx
    exact h₁.other x hx.2 hx.1
  · intro hroot
    rw [← h₁.trees] at hroot ⊢
    obtain ⟨hother, htrees⟩ := haway.root hroot
    refine ⟨fun x hx => ?_, htrees⟩
    rw [hother x hx]
    rw [List.mem_cons, not_or] at hx
    exact h₁.other x hx.2 hx.1

theorem WalkedChildren.walked_stays {bh₁ : BinHeap K V} {kids : List Addr}
    (h₁ : WalkedChildren removed c nodes₀ depth a [] kids bh bh₁) (hstays : removed a = false) :
    Walked c removed bh bh₁ a (a :: kids.flatMap (subtree nodes₀ depth))
      (leftOf removed (childrenLeft removed nodes₀ depth) kids) := by
  refine ⟨h₁.consistent, ?_, fun _ => ⟨h₁.trees, fun x hx => ?_⟩,
    fun hrem => absurd (hstays.symm.trans hrem) nofun⟩
  · refine h₁.prunes.congr fun x hx => ?_
    rw [List.mem_cons]
    refine ⟨Or.inr, fun hmem => hmem.resolve_left ?_⟩
    rintro rfl
    exact absurd (hstays.symm.trans hx) nofun
  · rw [List.mem_cons, not_or] at hx
    exact h₁.other x hx.2 hx.1

theorem itemsOf_singleton (hn : nodes a = some n) : itemsOf nodes [a] = [item n] := by
  simp [itemsOf, hn]

theorem walksTree {width : ℕ}
    (hrank : ∀ a ∈ nodes₀.live, ∀ x ∈ childrenOf nodes₀ a, rank x < rank a)
    (hkid : ∀ a ∈ nodes₀.live, ∀ x ∈ childrenOf nodes₀ a, x ∈ nodes₀.live)
    (hwidth : ∀ a ∈ nodes₀.live, (childrenOf nodes₀ a).length < width) :
    ∀ (depth fuel : ℕ) (a : Addr), a ∈ nodes₀.live → rank a < depth → depth + width ≤ fuel →
      (subtree nodes₀ depth a).Nodup → TidyBelow removed nodes₀ depth a →
      WalksTree removed c cb nodes₀ depth fuel a := by
  intro depth
  induction depth with
  | zero =>
      intro fuel a _ hlt
      exact absurd hlt (Nat.not_lt_zero _)
  | succ depth ih =>
      intro fuel a ha hlt hfuel hnodup htidy s h hintact hanswers
      cases fuel with
      | zero => omega
      | succ fuel =>
      rw [subtree] at hnodup hintact hanswers ⊢
      rw [List.nodup_cons] at hnodup
      obtain ⟨halive, hkids, hitem⟩ := hintact a List.mem_cons_self
      obtain ⟨n₀, hn₀⟩ := Heap.exists_of_mem_live ha
      obtain ⟨n, hn⟩ := Heap.exists_of_mem_live halive
      rw [hn, hn₀, Option.map_some, Option.map_some, Option.some.injEq] at hitem
      have hkey : n.key = n₀.key := congrArg Prod.fst hitem
      have hvalue : n.value = n₀.value := congrArg Prod.snd hitem
      have hitems : itemsOf nodes₀ [a] = [item n] := by rw [itemsOf_singleton hn₀, hitem]
      obtain ⟨hanswer, hrest⟩ := hanswers
      replace hanswer := hanswer n₀ hn₀
      rw [← hkey, ← hvalue] at hanswer
      rw [hitems] at hrest
      have hchild : ∀ d ∈ childrenOf nodes₀ a, d ∈ nodes₀.live ∧ rank d < depth := by
        intro d hd
        have hd' := hrank a ha d hd
        exact ⟨hkid a ha d hd, by omega⟩
      have hwalks : ∀ d ∈ childrenOf nodes₀ a, WalksTree removed c cb nodes₀ depth fuel d := by
        intro d hd
        obtain ⟨hdlive, hdrank⟩ := hchild d hd
        refine ih fuel d hdlive hdrank (by omega) ?_ (htidy.2 d hd)
        exact (List.nodup_flatMap.mp hnodup.2).1 d hd
      have hself : ∀ d ∈ childrenOf nodes₀ a, d ∈ subtree nodes₀ depth d := by
        intro d hd
        have hdrank := (hchild d hd).2
        cases depth with
        | zero => omega
        | succ depth => exact List.mem_cons_self
      have hwide := hwidth a ha
      obtain ⟨bh₁, hrun, hwalked⟩ := walkChildren_spec (childrenOf nodes₀ a) []
        { s with count := s.count + 1, calls := s.calls ++ [item n] } fuel (by omega) hwalks hself
        htidy.1 hnodup.2 hnodup.1 h halive hkids
        (fun x hx => hintact x (List.mem_cons_of_mem a hx)) hrest
      have hstate : ({ bh := bh₁
                       count := s.count + 1 +
                         ((childrenOf nodes₀ a).flatMap (subtree nodes₀ depth)).length
                       calls := s.calls ++ [item n] ++
                         itemsOf nodes₀ ((childrenOf nodes₀ a).flatMap (subtree nodes₀ depth)) } :
            WalkState K V) =
          { bh := bh₁
            count := s.count +
              (a :: (childrenOf nodes₀ a).flatMap (subtree nodes₀ depth)).length
            calls := s.calls ++
              itemsOf nodes₀ (a :: (childrenOf nodes₀ a).flatMap (subtree nodes₀ depth)) } := by
        have hcons : itemsOf nodes₀ (a :: (childrenOf nodes₀ a).flatMap (subtree nodes₀ depth)) =
            itemsOf nodes₀ [a] ++
              itemsOf nodes₀ ((childrenOf nodes₀ a).flatMap (subtree nodes₀ depth)) :=
          itemsOf_append [a] _
        rw [hcons, hitems, List.length_cons, List.append_assoc]
        congr 1
        omega
      rw [hstate] at hrun
      have hloop : walkChildren (binomialTreeWalk c.cmp cb fuel) a fuel
          { s with count := s.count + 1, calls := s.calls ++ [item n] } 0 = _ := hrun
      rw [childrenLeft]
      by_cases hrem : removed a = true
      · rw [if_pos hrem] at hanswer
        have hdecode : decodeAnswer (cb s.calls n.key n.value) = (true, true) := by
          rw [hanswer]
          rfl
        obtain ⟨m, hm⟩ := Heap.exists_of_mem_live
          ((hwalked.prunes.live a).mpr ⟨halive, fun hmem => hnodup.1 hmem.1⟩)
        obtain ⟨rs, hrs, -, hin⟩ := hwalked.children
        rw [List.nil_append] at hrs
        obtain ⟨bh₂, hremove, h₂, hprunes, haway⟩ := removeWalked_spec
          { bh := bh₁
            count := s.count + (a :: (childrenOf nodes₀ a).flatMap (subtree nodes₀ depth)).length
            calls := s.calls ++
              itemsOf nodes₀ (a :: (childrenOf nodes₀ a).flatMap (subtree nodes₀ depth)) }
          (a :: (childrenOf nodes₀ a).flatMap (subtree nodes₀ depth))
          hwalked.consistent hm
          (fun y hy => List.mem_cons_of_mem a (hin y (hrs ▸ hy))) List.mem_cons_self hrem
        refine ⟨bh₂, ?_, hwalked.walked_away h₂ hrem hprunes haway⟩
        simp only [binomialTreeWalk, hn, Option.bind_eq_bind, Option.bind_some, hdecode, if_true,
          hloop, hremove]
      · rw [if_neg hrem] at hanswer
        rw [Bool.not_eq_true] at hrem
        have hdecode : decodeAnswer (cb s.calls n.key n.value) = (true, false) := by
          rw [hanswer]
          rfl
        refine ⟨bh₁, ?_, hwalked.walked_stays hrem⟩
        simp only [binomialTreeWalk, hn, Option.bind_eq_bind, Option.bind_some, hdecode, if_true,
          hloop, Bool.false_eq_true, if_false]

/-- The place of a root in the list of trees is taken by another node. -/
theorem replace_in_place {done rest : List Addr} {r e : Addr} (hnot : r ∉ done) :
    ((done ++ r :: rest).erase r).insertIdx ((done ++ r :: rest).idxOf r) e =
      done ++ e :: rest := by
  rw [List.erase_append_right _ hnot, List.erase_cons_head, List.idxOf_append_of_notMem hnot,
    List.idxOf_cons_self, Nat.add_zero]
  induction done with
  | nil => rfl
  | cons x done ih =>
      rw [List.mem_cons, not_or] at hnot
      rw [List.cons_append, List.length_cons, List.insertIdx_succ_cons, ih hnot.2, List.cons_append]

/-- The loop over the trees. -/
theorem walkTrees_spec {fuel' : ℕ} : ∀ (rest done : List Addr) (s : WalkState K V) (fuel : ℕ),
    rest.length < fuel → (∀ r ∈ rest, WalksTree removed c cb nodes₀ depth fuel' r) →
    TidyRoots removed (childrenLeft removed nodes₀ depth) rest →
    (rest.flatMap (subtree nodes₀ depth)).Nodup → Consistent c s.bh → s.bh.trees = done ++ rest →
    Intact nodes₀ s.bh.nodes (rest.flatMap (subtree nodes₀ depth)) →
    Answers cb nodes₀ removed s.calls (rest.flatMap (subtree nodes₀ depth)) →
    ∃ bh', walkTrees c.cmp cb fuel' fuel s done.length = some
        { bh := bh'
          count := s.count + (rest.flatMap (subtree nodes₀ depth)).length
          calls := s.calls ++ itemsOf nodes₀ (rest.flatMap (subtree nodes₀ depth)) } ∧
      Consistent c bh' ∧ Prunes removed s.bh bh' (rest.flatMap (subtree nodes₀ depth)) := by
  intro rest
  induction rest with
  | nil =>
      intro done s fuel hfuel _ _ _ h htrees _ _
      cases fuel with
      | zero => exact absurd hfuel (Nat.not_lt_zero _)
      | succ fuel =>
          refine ⟨s.bh, ?_, h, Prunes.refl _⟩
          simp [walkTrees, htrees, itemsOf]
  | cons r rest ih =>
      intro done s fuel hfuel hwalks htidy hnodup h htrees hintact hanswers
      have hroot : s.bh.trees[done.length]? = some r := by
        rw [htrees, List.getElem?_append_right (Nat.le_refl _), Nat.sub_self]
        rfl
      rw [List.flatMap_cons] at hnodup hintact hanswers
      obtain ⟨-, hnodup₂, hdisjoint⟩ := List.nodup_append.mp hnodup
      rw [answers_append] at hanswers
      obtain ⟨bh₁, hrun, hwalked⟩ := hwalks r List.mem_cons_self s h
        (fun x hx => hintact x (List.mem_append_left _ hx)) hanswers.1
      have hapart : ∀ x ∈ rest.flatMap (subtree nodes₀ depth), x ∉ subtree nodes₀ depth r :=
        fun x hx hx' => hdisjoint x hx' x hx rfl
      cases fuel with
      | zero => exact absurd hfuel (Nat.not_lt_zero _)
      | succ fuel =>
      rw [List.length_cons, Nat.succ_lt_succ_iff] at hfuel
      -- The walk goes on behind a tree that takes the place of the walked one.
      have hnext : ∀ e, bh₁.trees = done ++ e :: rest →
          (∀ x, x ∉ subtree nodes₀ depth r → childrenOf bh₁.nodes x = childrenOf s.bh.nodes x) →
          TidyRoots removed (childrenLeft removed nodes₀ depth) rest →
          ∃ bh', walkTrees c.cmp cb fuel' (fuel + 1) s done.length = some
              { bh := bh'
                count := s.count + ((r :: rest).flatMap (subtree nodes₀ depth)).length
                calls := s.calls ++ itemsOf nodes₀ ((r :: rest).flatMap (subtree nodes₀ depth)) } ∧
            Consistent c bh' ∧
            Prunes removed s.bh bh' ((r :: rest).flatMap (subtree nodes₀ depth)) := by
        intro e htrees₁ hsame htidy'
        have hintact₁ : Intact nodes₀ bh₁.nodes (rest.flatMap (subtree nodes₀ depth)) := by
          have hlater : Intact nodes₀ s.bh.nodes (rest.flatMap (subtree nodes₀ depth)) :=
            fun x hx => hintact x (List.mem_append_right _ hx)
          exact hlater.prunes hwalked.prunes hapart fun x hx => hsame x (hapart x hx)
        obtain ⟨bh', hrun', h', hprunes⟩ := ih (done ++ [e])
          { bh := bh₁
            count := s.count + (subtree nodes₀ depth r).length
            calls := s.calls ++ itemsOf nodes₀ (subtree nodes₀ depth r) }
          fuel hfuel (fun x hx => hwalks x (List.mem_cons_of_mem r hx)) htidy' hnodup₂
          hwalked.consistent (by rw [htrees₁, List.append_assoc]; rfl) hintact₁ hanswers.2
        refine ⟨bh', ?_, h', ?_⟩
        · rw [List.length_append, List.length_singleton] at hrun'
          simp only [walkTrees, hroot, hrun, Option.bind_eq_bind, Option.bind_some, if_true,
            hrun', List.flatMap_cons, List.length_append, itemsOf_append, List.append_assoc,
            Int.natCast_add, Int.add_assoc]
        · rw [List.flatMap_cons]
          exact hwalked.prunes.trans hprunes
      by_cases hrem : removed r = true
      · have hrootmem : r ∈ s.bh.trees := by
          rw [htrees]
          exact List.mem_append_right _ List.mem_cons_self
        have hnotdone : r ∉ done := by
          have hrootsNodup := h.ordered.forest.rootsNodup
          rw [htrees] at hrootsNodup
          exact fun hmem => (List.nodup_append.mp hrootsNodup).2.2 r hmem r List.mem_cons_self rfl
        obtain ⟨hsame, hgone⟩ := (hwalked.away hrem).root hrootmem
        rcases hgone with ⟨hzero, htrees₁⟩ | ⟨hpos, e, htrees₁⟩
        · -- Nothing is left of the tree, which was the last one.
          have hlast : rest = [] := by
            cases rest with
            | nil => rfl
            | cons e rest => exact absurd (htidy.1 hrem) (by omega)
          subst hlast
          rw [htrees, List.erase_append_right _ hnotdone, List.erase_cons_head,
            List.append_nil] at htrees₁
          have hend : bh₁.trees[done.length + 1]? = none := by
            rw [htrees₁, List.getElem?_eq_none_iff]
            omega
          refine ⟨bh₁, ?_, hwalked.consistent, ?_⟩
          · cases fuel with
            | zero => exact absurd hfuel (Nat.not_lt_zero _)
            | succ fuel => simp [walkTrees, hroot, hrun, hend]
          · rw [List.flatMap_cons, List.flatMap_nil, List.append_nil]
            exact hwalked.prunes
        · rw [htrees, replace_in_place hnotdone] at htrees₁
          refine hnext e htrees₁ hsame ?_
          cases rest with
          | nil => trivial
          | cons f rest => exact htidy.2
      · rw [Bool.not_eq_true] at hrem
        obtain ⟨htrees₁, hsame⟩ := hwalked.stays hrem
        refine hnext r (htrees₁.trans htrees) hsame ?_
        cases rest with
        | nil => trivial
        | cons f rest => exact htidy.2

end Trees

/-! ## What the walk of a heap does -/

/-- The items, among those that a callback was called for, that it answered for with 1. -/
def keptOf (cb : WalkCallback K V) : List (K × V) → List (K × V) → List (K × V)
  | _, [] => []
  | calls, i :: l =>
      if cb calls i.1 i.2 = 1 then i :: keptOf cb (calls ++ [i]) l
      else keptOf cb (calls ++ [i]) l

/-- A walk does what it should: it calls the callback once for every item, returns their
number, and leaves a consistent heap of the items that the callback answered for with 1. -/
structure WalksRightly (c : Comparator K) (cb : WalkCallback K V) (bh : BinHeap K V)
    (s : WalkState K V) : Prop where
  calls : (s.calls : Multiset (K × V)) = contents bh
  count : s.count = (contents bh).card
  contents : contents s.bh = (keptOf cb [] s.calls : Multiset (K × V))
  heapCount : s.bh.count = (keptOf cb [] s.calls).length
  consistent : Consistent c s.bh
  mode : s.bh.mode = bh.mode

theorem keptOf_itemsOf {cb : WalkCallback K V} : ∀ {l : List Addr} {calls : List (K × V)},
    (∀ x ∈ l, x ∈ nodes.live) → Answers cb nodes removed calls l →
    keptOf cb calls (itemsOf nodes l) = itemsOf nodes (l.filter fun x => !removed x) := by
  intro l
  induction l with
  | nil => exact fun _ _ => rfl
  | cons a l ih =>
      intro calls hlive hanswers
      obtain ⟨n, hn⟩ := Heap.exists_of_mem_live (hlive a List.mem_cons_self)
      obtain ⟨hanswer, hrest⟩ := hanswers
      rw [itemsOf_singleton hn] at hrest
      have hcons : ∀ l', itemsOf nodes (a :: l') = item n :: itemsOf nodes l' := by
        intro l'
        rw [← List.singleton_append, itemsOf_append, itemsOf_singleton hn, List.singleton_append]
      have hcall : cb calls (item n).1 (item n).2 = if removed a then -1 else 1 := hanswer n hn
      rw [hcons, keptOf, hcall, ih (fun x hx => hlive x (List.mem_cons_of_mem a hx)) hrest]
      cases hrem : removed a with
      | true => simp [hrem]
      | false => simp [hrem, hcons]

theorem coe_itemsOf_preorder (h : Consistent c bh) :
    (itemsOf bh.nodes (preorder bh) : Multiset (K × V)) = contents bh := by
  have hperm := flatMap_subtree_perm h.ordered.forest
  rw [itemsOf, ← Multiset.filterMap_coe, preorder, Multiset.coe_eq_coe.mpr hperm,
    Finset.coe_toList]
  rfl

/-- The bag of the nodes that are not removed. -/
theorem Prunes.contents_eq (hp : Prunes removed bh bh' l)
    (hperm : l.Perm bh.nodes.live.toList) :
    contents bh' = (itemsOf bh.nodes (l.filter fun x => !removed x) : Multiset (K × V)) := by
  have hlive : bh'.nodes.live = bh.nodes.live.filter fun x => (!removed x) = true := by
    ext x
    rw [hp.live, Finset.mem_filter]
    constructor
    · rintro ⟨hx, hnot⟩
      refine ⟨hx, ?_⟩
      have hmem := hperm.mem_iff.mpr (Finset.mem_toList.mpr hx)
      cases hrem : removed x with
      | true => exact absurd ⟨hmem, hrem⟩ hnot
      | false => rfl
    · rintro ⟨hx, hrem⟩
      refine ⟨hx, fun hand => ?_⟩
      rw [hand.2] at hrem
      cases hrem
  have hval : bh'.nodes.live.val = ((l.filter fun x => !removed x : List Addr) : Multiset Addr) := by
    have hdecide : (l.filter fun x => !removed x) = l.filter fun x => decide ((!removed x) = true) := by
      simp only [Bool.decide_eq_true]
    rw [hdecide, ← Multiset.filter_coe, Multiset.coe_eq_coe.mpr hperm, Finset.coe_toList, hlive,
      Finset.filter_val]
  rw [contents, Heap.bag, itemsOf, ← Multiset.filterMap_coe, ← hval]
  exact Heap.filterMap_congr_of_mem fun x hx => hp.items x hx

theorem Consistent.binheapWalk_spec (h : Consistent c bh) {cb : WalkCallback K V}
    (hcb : ∀ calls k v, cb calls k v = 1 ∨ cb calls k v = -1) (htidy : Tidy (removedBy cb bh) bh)
    {fuel : ℕ} (hfuel : 2 * bh.nodes.brk < fuel) :
    ∃ s, binheapWalk c.cmp cb fuel bh = some s ∧ WalksRightly c cb bh s := by
  have hf := h.ordered.forest
  obtain ⟨rank, hrank, hcard⟩ := hf.exists_rank_lt
  have hkid : ∀ a ∈ bh.nodes.live, ∀ x ∈ childrenOf bh.nodes a, x ∈ bh.nodes.live :=
    fun a ha x hx => hf.mem_of_kid ha hx
  have hperm := flatMap_subtree_perm hf
  have hnodup : (preorder bh).Nodup := hperm.nodup_iff.mpr (Finset.nodup_toList _)
  have hlive : ∀ x ∈ preorder bh, x ∈ bh.nodes.live :=
    fun x hx => Finset.mem_toList.mp (hperm.mem_iff.mp hx)
  have hwidth : ∀ a ∈ bh.nodes.live, (childrenOf bh.nodes a).length < bh.nodes.brk + 1 :=
    fun a ha => Nat.lt_succ_of_le (Heap.length_le_brk (hf.kidsNodup a ha) (hkid a ha))
  have hanswers := answers_preorder hcb hnodup
  have hwalks : ∀ r ∈ bh.trees,
      WalksTree (removedBy cb bh) c cb bh.nodes bh.nodes.brk fuel r := by
    intro r hr
    have hrlive := h.ordered.trees_live r hr
    refine walksTree hrank hkid hwidth bh.nodes.brk fuel r hrlive
      (Nat.lt_of_lt_of_le (hcard r hrlive) bh.nodes.card_live_le_brk) (by omega) ?_ (htidy.2 r hr)
    exact (List.nodup_flatMap.mp hnodup).1 r hr
  have htrees : bh.trees.length < fuel := by
    have hle := Heap.length_le_brk hf.rootsNodup h.ordered.trees_live
    omega
  obtain ⟨bh', hrun, h', hprunes⟩ := walkTrees_spec bh.trees []
    { bh := bh, count := 0, calls := [] } fuel htrees hwalks htidy.1 hnodup h rfl
    (fun x hx => ⟨hlive x hx, rfl, rfl⟩) hanswers
  have hkept := keptOf_itemsOf hlive hanswers
  have hcontents := hprunes.contents_eq hperm
  refine ⟨_, hrun, ?_⟩
  have hcalls : ([] : List (K × V)) ++ itemsOf bh.nodes (preorder bh) =
      itemsOf bh.nodes (preorder bh) := rfl
  refine ⟨coe_itemsOf_preorder h, ?_, ?_, ?_, h', hprunes.mode⟩
  · show (0 : ℤ) + ((preorder bh).length : ℤ) = _
    rw [Int.zero_add, BinHeap.contents, Heap.card_bag, preorder, hperm.length_eq, Finset.length_toList]
  · show contents bh' = (keptOf cb [] (itemsOf bh.nodes (preorder bh)) : Multiset (K × V))
    rw [hkept]
    exact hcontents
  · show bh'.count = ((keptOf cb [] (itemsOf bh.nodes (preorder bh))).length : ℤ)
    rw [hkept, h'.count, ← Heap.card_bag (f := item)]
    have hcard' := congrArg Multiset.card hcontents
    rw [Multiset.coe_card] at hcard'
    exact congrArg _ hcard'

end BinHeap
end LibHL
