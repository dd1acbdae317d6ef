import LibHL.BinHeap.SinglePath
import Mathlib.Logic.Relation

/-!
# Changing the extreme key

A changed key moves up as long as it has precedence over the key above it.  It never
moves down, and the cached head is not refreshed.  So the heap order survives, and the
head stays extreme, exactly if the head keeps up with the change.
-/

namespace LibHL
namespace BinHeap

variable {K V : Type}

/-- `binheap_callbacks_t`. -/
structure BinheapCallbacks (K : Type) where
  cmp : K → K → ℤ
  incr : K → ℤ → K
  decr : K → ℤ → K

/-- The callbacks for integer keys, without wrap-around. -/
def intCallbacks : BinheapCallbacks ℤ where
  cmp := fun k₁ k₂ => k₁ - k₂
  incr := fun k n => k + n
  decr := fun k n => k - n

/-- The loop of `binomial_tree_node_increase_key`, which cannot go round more often than
there are nodes.  The parent gets the new key and the value of the node, the node those of
its parent. -/
def moveUp (cmp : K → K → ℤ) (mode : BinheapMode) (nkey : K) :
    ℕ → Heap (BinomialTreeNode K V) → Addr → Bool → Option (Heap (BinomialTreeNode K V))
  | 0, _, _, _ => none
  | fuel + 1, nodes, node, swapped => do
      let n ← nodes node
      match n.parent with
      | some parent => do
          let p ← nodes parent
          if HasPrecedence cmp mode nkey p.key then do
            let nodes ← nodes.modify parent fun q => { q with key := nkey, value := n.value }
            let nodes ← nodes.modify node fun q => { q with key := p.key, value := p.value }
            moveUp cmp mode nkey fuel nodes parent true
          else if swapped then some nodes
          else nodes.modify node fun q => { q with key := nkey }
      | none =>
          if swapped then some nodes
          else nodes.modify node fun q => { q with key := nkey }

/-- `INT_MIN`. -/
def INT_MIN : ℤ := -2 ^ 31

/-- `INT_MAX`. -/
def INT_MAX : ℤ := 2 ^ 31 - 1

/-- An `int`. -/
abbrev CInt := { n : ℤ // INT_MIN ≤ n ∧ n ≤ INT_MAX }

theorem neg_inRange {n : CInt} (h : INT_MIN < n.1) : INT_MIN ≤ -n.1 ∧ -n.1 ≤ INT_MAX := by
  obtain ⟨-, hle⟩ := n.2
  have hmin : INT_MIN = -2 ^ 31 := rfl
  have hmax : INT_MAX = 2 ^ 31 - 1 := rfl
  omega

/-- `-n`, which has no result if it overflows. -/
def negInt (n : CInt) : Option CInt :=
  if h : INT_MIN < n.1 then some ⟨-n.1, neg_inRange h⟩ else none

/-- The new key. -/
def newKey (cbs : BinheapCallbacks K) (okey : K) (incr : CInt) : Option K :=
  if incr.1 = 0 then some okey
  else if 0 < incr.1 then some (cbs.incr okey incr.1)
  else (negInt incr).map fun n => cbs.decr okey n.1

/-- `binomial_tree_node_increase_key`. -/
def binomialTreeNodeIncreaseKey (cbs : BinheapCallbacks K) (bh : BinHeap K V) (node : Addr)
    (incr : CInt) : Option (BinHeap K V) :=
  if incr.1 = 0 then some bh
  else do
    let n ← bh.nodes node
    let nkey ← newKey cbs n.key incr
    let nodes ← moveUp cbs.cmp bh.mode nkey (bh.nodes.brk + 1) bh.nodes node false
    some { bh with nodes := nodes }

/-- The body shared by the functions that change an extreme key.  The amount is computed when
there is an item; it may have no value. -/
def changeExtremum (cbs : BinheapCallbacks K) (bh : BinHeap K V) (side : BinheapMode)
    (incr : Option CInt) : Option (BinHeap K V) := do
  let (node, _) ← getExtremum cbs.cmp bh side
  match node with
  | none => some bh
  | some a => do
      let n ← incr
      binomialTreeNodeIncreaseKey cbs bh a n

/-- `binheap_increase_maximum`. -/
def binheapIncreaseMaximum (cbs : BinheapCallbacks K) (bh : BinHeap K V) (incr : CInt) :=
  changeExtremum cbs bh .max (some incr)

/-- `binheap_decrease_maximum`. -/
def binheapDecreaseMaximum (cbs : BinheapCallbacks K) (bh : BinHeap K V) (decr : CInt) :=
  changeExtremum cbs bh .max (negInt decr)

/-- `binheap_increase_minimum`. -/
def binheapIncreaseMinimum (cbs : BinheapCallbacks K) (bh : BinHeap K V) (incr : CInt) :=
  changeExtremum cbs bh .min (some incr)

/-- `binheap_decrease_minimum`. -/
def binheapDecreaseMinimum (cbs : BinheapCallbacks K) (bh : BinHeap K V) (decr : CInt) :=
  changeExtremum cbs bh .min (negInt decr)

/-! ## Ways up -/

/-- The second node is the first one, or above it. -/
def Climbs (nodes : Heap (BinomialTreeNode K V)) : Addr → Addr → Prop :=
  Relation.ReflTransGen fun a b => parentOf nodes a = some b

variable {c : Comparator K} {bh : BinHeap K V} {mode side : BinheapMode}
  {nodes nodes' nodes'' : Heap (BinomialTreeNode K V)} {trees : List Addr} {a b r : Addr}
  {n : BinomialTreeNode K V} {nkey : K}

theorem climbs_of_mem_subtree
    (hf : Forest nodes.live trees (parentOf nodes) (childrenOf nodes)) : ∀ (depth : ℕ) (r : Addr),
      r ∈ nodes.live → ∀ a ∈ subtree nodes depth r, Climbs nodes a r := by
  intro depth
  induction depth with
  | zero => exact fun _ _ _ ha => nomatch ha
  | succ depth ih =>
      intro r hr a ha
      rcases List.mem_cons.mp ha with rfl | ha
      · exact .refl
      · obtain ⟨d, hd, ha⟩ := List.mem_flatMap.mp ha
        exact (ih d (hf.mem_of_kid hr hd) a ha).tail (hf.par_of_kid hr hd)

theorem kid_mem_subtree {d : Addr} : ∀ {depth : ℕ} {r : Addr}, a ∈ subtree nodes depth r →
    d ∈ childrenOf nodes a → d ∈ subtree nodes (depth + 1) r := by
  intro depth
  induction depth with
  | zero => exact fun ha _ => nomatch ha
  | succ depth ih =>
      intro r ha hd
      rw [subtree]
      rcases List.mem_cons.mp ha with rfl | ha
      · exact List.mem_cons_of_mem a (List.mem_flatMap.mpr ⟨d, hd, List.mem_cons_self⟩)
      · obtain ⟨e, he, ha⟩ := List.mem_flatMap.mp ha
        exact List.mem_cons_of_mem r (List.mem_flatMap.mpr ⟨e, he, ih ha hd⟩)

theorem mem_subtree_iff_climbs
    (hf : Forest nodes.live trees (parentOf nodes) (childrenOf nodes)) (ha : a ∈ nodes.live)
    (hr : r ∈ nodes.live) : a ∈ subtree nodes nodes.brk r ↔ Climbs nodes a r := by
  refine ⟨climbs_of_mem_subtree hf _ r hr a, fun hclimb => ?_⟩
  obtain ⟨rank, hrank, hcard⟩ := hf.exists_rank_lt
  have hlt := Nat.lt_of_lt_of_le (hcard r hr) nodes.card_live_le_brk
  induction hclimb using Relation.ReflTransGen.head_induction_on with
  | refl =>
      obtain ⟨depth, hdepth⟩ := Nat.exists_eq_add_of_lt hlt
      rw [hdepth, subtree]
      exact List.mem_cons_self
  | head hpar _ ih =>
      have hp := hf.parent _ ha _ hpar
      have hmem := kid_mem_subtree (ih hp) ((hf.kid _ hp _).mpr ⟨ha, hpar⟩)
      rwa [subtree_eq_of_rank hrank (fun x hx y hy => hf.mem_of_kid hx hy) _ nodes.brk r hr
        (Nat.lt_succ_of_lt hlt) hlt] at hmem

/-! ## Moving up -/

/-- What a node is linked to. -/
def links (n : BinomialTreeNode K V) : Option Addr × List Addr := (n.parent, n.children)

/-- Only keys and values differ. -/
def SameLinks (nodes nodes' : Heap (BinomialTreeNode K V)) : Prop :=
  Heap.SameThrough links nodes nodes'

theorem SameLinks.parentOf_eq (hs : SameLinks nodes nodes') (x : Addr) :
    parentOf nodes' x = parentOf nodes x := by
  have hmap := congrArg (fun o => o.bind Prod.fst) (hs x)
  simp only [Option.bind_map] at hmap
  exact hmap

theorem SameLinks.childrenOf_eq (hs : SameLinks nodes nodes') (x : Addr) :
    childrenOf nodes' x = childrenOf nodes x := by
  have hmap := congrArg (Option.map Prod.snd) (hs x)
  rw [Option.map_map, Option.map_map] at hmap
  exact congrArg (fun o => Option.getD o []) hmap

theorem SameLinks.forest (hs : SameLinks nodes nodes')
    (hf : Forest nodes.live trees (parentOf nodes) (childrenOf nodes)) :
    Forest nodes'.live trees (parentOf nodes') (childrenOf nodes') := by
  rw [hs.live_eq]
  exact hf.congr (fun x _ => hs.parentOf_eq x) (fun x _ => hs.childrenOf_eq x) (.refl _)

/-- The new key has precedence over the key of a node. -/
def Beats (cmp : K → K → ℤ) (mode : BinheapMode) (nkey : K) (nodes : Heap (BinomialTreeNode K V))
    (x : Addr) : Prop :=
  ∀ k, keyOf nodes x = some k → HasPrecedence cmp mode nkey k

/-- The heap order off one node, whose children are in order with its parent. -/
structure OrderedOff (c : Comparator K) (mode : BinheapMode) (nodes : Heap (BinomialTreeNode K V))
    (a : Addr) : Prop where
  off : ∀ x ∈ nodes.live, ∀ y ∈ childrenOf nodes x, x ≠ a → y ≠ a → Above c.cmp mode nodes x y
  across : ∀ p, parentOf nodes a = some p → ∀ y ∈ childrenOf nodes a, Above c.cmp mode nodes p y

theorem Ordered.orderedOff (h : Ordered c mode nodes trees) (ha : a ∈ nodes.live) :
    OrderedOff c mode nodes a where
  off := fun x hx y hy _ _ => h.above x hx y hy
  across := by
    intro p hp y hy
    have hplive := h.forest.parent a ha p hp
    have hak : a ∈ childrenOf nodes p := (h.forest.kid p hplive a).mpr ⟨ha, hp⟩
    exact above_trans c ha (h.above p hplive a hak) (h.above a ha y hy)

/-- A new key at a node, given that its children are below the new key, and its parent is
not. -/
theorem OrderedOff.close (h : OrderedOff c mode nodes a) (hlive : nodes'.live = nodes.live)
    (hkids : ∀ x, childrenOf nodes' x = childrenOf nodes x)
    (hself : keyOf nodes' a = some nkey) (hother : ∀ x, x ≠ a → keyOf nodes' x = keyOf nodes x)
    (hkidSelf : a ∉ childrenOf nodes a)
    (hbelow : ∀ y ∈ childrenOf nodes a, Beats c.cmp mode nkey nodes y)
    (hstop : ∀ x ∈ nodes.live, a ∈ childrenOf nodes x → ¬ Beats c.cmp mode nkey nodes x) :
    ∀ x ∈ nodes'.live, ∀ y ∈ childrenOf nodes' x, Above c.cmp mode nodes' x y := by
  intro x hx y hy
  rw [hlive] at hx
  rw [hkids] at hy
  intro k l hk hl
  by_cases hxa : x = a
  · subst hxa
    have hya : y ≠ x := fun heq => hkidSelf (heq ▸ hy)
    rw [hself] at hk
    rw [hother y hya] at hl
    cases hk
    exact hbelow y hy l hl
  · rw [hother x hxa] at hk
    by_cases hya : y = a
    · subst hya
      rw [hself] at hl
      cases hl
      refine (hasPrecedence_total c mode k nkey).resolve_right fun hbeats => ?_
      refine hstop x hx hy fun k' hk' => ?_
      rw [hk] at hk'
      cases hk'
      exact hbeats
    · rw [hother y hya] at hl
      exact h.off x hx y hy hxa hya k l hk hl

theorem not_mem_childrenOf_self
    (hf : Forest nodes.live trees (parentOf nodes) (childrenOf nodes)) (ha : a ∈ nodes.live) :
    a ∉ childrenOf nodes a := by
  intro hmem
  obtain ⟨rank, hrank⟩ := hf.ranked
  exact Nat.lt_irrefl _ (hrank a ha a (hf.par_of_kid ha hmem))

/-- The new key moves to the parent, and the key of the parent to the node. -/
theorem OrderedOff.swap {p : Addr} (h : OrderedOff c mode nodes a)
    (hf : Forest nodes.live trees (parentOf nodes) (childrenOf nodes)) (ha : a ∈ nodes.live)
    (hp : parentOf nodes a = some p) (hbeats : Beats c.cmp mode nkey nodes p)
    (hs : SameLinks nodes nodes') (hself : keyOf nodes' a = keyOf nodes p)
    (hother : ∀ x, x ≠ a → x ≠ p → keyOf nodes' x = keyOf nodes x) :
    OrderedOff c mode nodes' p ∧ ∀ y ∈ childrenOf nodes' p, Beats c.cmp mode nkey nodes' y := by
  obtain ⟨rank, hrank⟩ := hf.ranked
  have hplive := hf.parent a ha p hp
  have hpa : p ≠ a := fun heq => absurd (hrank a ha p hp) (heq ▸ Nat.lt_irrefl _)
  have hbelow : ∀ y ∈ childrenOf nodes p, y ≠ a → Above c.cmp mode nodes p y :=
    fun y hy hya => h.off p hplive y hy hpa hya
  refine ⟨⟨?_, ?_⟩, ?_⟩
  · intro x hx y hy hxp hyp k l hk hl
    rw [hs.live_eq] at hx
    rw [hs.childrenOf_eq] at hy
    by_cases hxa : x = a
    · subst hxa
      have hyx : y ≠ x := fun heq => not_mem_childrenOf_self hf hx (heq ▸ hy)
      rw [hself] at hk
      rw [hother y hyx hyp] at hl
      exact h.across p hp y hy k l hk hl
    · have hya : y ≠ a := by
        rintro rfl
        rw [hf.par_of_kid hx hy] at hp
        exact hxp (Option.some.inj hp)
      rw [hother x hxa hxp] at hk
      rw [hother y hya hyp] at hl
      exact h.off x hx y hy hxa hya k l hk hl
  · intro g hg y hy k l hk hl
    rw [hs.parentOf_eq] at hg
    rw [hs.childrenOf_eq] at hy
    have hglive := hf.parent p hplive g hg
    have hga : g ≠ a := by
      rintro rfl
      exact Nat.lt_asymm (hrank g ha p hp) (hrank p hplive g hg)
    have hgp : g ≠ p := fun heq => absurd (hrank p hplive g hg) (heq ▸ Nat.lt_irrefl _)
    have hpk : p ∈ childrenOf nodes g := (hf.kid g hglive p).mpr ⟨hplive, hg⟩
    have hgp' := h.off g hglive p hpk hga hpa
    rw [hother g hga hgp] at hk
    by_cases hya : y = a
    · subst hya
      rw [hself] at hl
      exact hgp' k l hk hl
    · have hyp : y ≠ p := fun heq => not_mem_childrenOf_self hf hplive (heq ▸ hy)
      rw [hother y hya hyp] at hl
      exact above_trans c hplive hgp' (hbelow y hy hya) k l hk hl
  · intro y hy l hl
    rw [hs.childrenOf_eq] at hy
    by_cases hya : y = a
    · subst hya
      rw [hself] at hl
      exact hbeats l hl
    · have hyp : y ≠ p := fun heq => not_mem_childrenOf_self hf hplive (heq ▸ hy)
      rw [hother y hya hyp] at hl
      obtain ⟨q, hq⟩ := Heap.exists_of_mem_live hplive
      exact hasPrecedence_trans c (hbeats q.key (keyOf_eq hq))
        (hbelow y hy hya q.key l (keyOf_eq hq) hl)

/-- What moving a new key up from one node to another one achieves. -/
structure MovesUp (c : Comparator K) (mode : BinheapMode) (nkey : K) (value : V)
    (nodes nodes' : Heap (BinomialTreeNode K V)) (a b : Addr) : Prop where
  same : SameLinks nodes nodes'
  climbs : Climbs nodes a b
  key : keyOf nodes' b = some nkey
  root : ∀ x, parentOf nodes x = none → x ≠ b → keyOf nodes' x = keyOf nodes x
  beats : b ≠ a → Beats c.cmp mode nkey nodes b
  stop : ∀ p, parentOf nodes b = some p → ¬ Beats c.cmp mode nkey nodes p
  bag : nodes'.bag item = (nkey, value) ::ₘ (nodes.kill a).bag item

theorem sameLinks_put_item (hn : nodes a = some n) (k : K) (v : V) :
    SameLinks nodes (nodes.put a { n with key := k, value := v }) :=
  Heap.sameThrough_put hn rfl

theorem keyOf_put_self (hn : nodes a = some n) (m : BinomialTreeNode K V) :
    keyOf (nodes.put a m) a = some m.key := by
  rw [keyOf, Heap.put_self hn, Option.map_some]

theorem keyOf_put_of_ne {x : Addr} (m : BinomialTreeNode K V) (hx : x ≠ a) :
    keyOf (nodes.put a m) x = keyOf nodes x := by
  rw [keyOf, keyOf, Heap.put_of_ne hx]

theorem moveUp_stay (h : OrderedOff c mode nodes a)
    (hf : Forest nodes.live trees (parentOf nodes) (childrenOf nodes)) (hn : nodes a = some n)
    {swapped : Bool} (hswapped : swapped = true → n.key = nkey)
    (hstop : ∀ p, parentOf nodes a = some p → ¬ Beats c.cmp mode nkey nodes p) :
    ∃ nodes', (if swapped then some nodes
        else nodes.modify a fun q => { q with key := nkey }) = some nodes' ∧
      MovesUp c mode nkey n.value nodes nodes' a a ∧
      ((∀ y ∈ childrenOf nodes a, Beats c.cmp mode nkey nodes y) →
        ∀ x ∈ nodes'.live, ∀ y ∈ childrenOf nodes' x, Above c.cmp mode nodes' x y) := by
  have ha := Heap.mem_live_of_eq_some hn
  have hclose : ∀ nodes', SameLinks nodes nodes' → keyOf nodes' a = some nkey →
      (∀ x, x ≠ a → keyOf nodes' x = keyOf nodes x) →
      (∀ y ∈ childrenOf nodes a, Beats c.cmp mode nkey nodes y) →
      ∀ x ∈ nodes'.live, ∀ y ∈ childrenOf nodes' x, Above c.cmp mode nodes' x y := by
    intro nodes' hs hself hother hbelow
    refine h.close hs.live_eq hs.childrenOf_eq hself hother (not_mem_childrenOf_self hf ha) hbelow ?_
    exact fun x hx hax => hstop x (hf.par_of_kid hx hax)
  cases swapped with
  | true =>
      have hkey : keyOf nodes a = some nkey := by rw [keyOf_eq hn, hswapped rfl]
      refine ⟨nodes, rfl, ⟨Heap.SameThrough.refl _, .refl, hkey, fun _ _ _ => rfl,
        fun hne => absurd rfl hne, hstop, ?_⟩,
        hclose nodes (Heap.SameThrough.refl _) hkey fun _ _ => rfl⟩
      rw [Heap.bag_kill hn, ← hswapped rfl, item]
  | false =>
      have hs : SameLinks nodes (nodes.put a { n with key := nkey }) :=
        sameLinks_put_item hn nkey n.value
      refine ⟨_, Heap.modify_eq_some _ hn,
        ⟨hs, .refl, keyOf_put_self hn _, fun _ _ hx => keyOf_put_of_ne _ hx,
          fun hne => absurd rfl hne, hstop, ?_⟩,
        hclose _ hs (keyOf_put_self hn _) fun _ hx => keyOf_put_of_ne _ hx⟩
      rw [Heap.bag_put hn]
      rfl

/-- Exchanging what two nodes store, the key of one of them being replaced. -/
theorem bag_swap {p : Addr} {q : BinomialTreeNode K V} (hn : nodes a = some n)
    (hq : nodes p = some q) (hpa : p ≠ a) (k : K) :
    (((nodes.put p { q with key := k, value := n.value }).put a
      { n with key := q.key, value := q.value }).kill p).bag item = (nodes.kill a).bag item := by
  set n' : BinomialTreeNode K V := { n with key := q.key, value := q.value }
  set q' : BinomialTreeNode K V := { q with key := k, value := n.value }
  have hn' : ((nodes.put p q').put a n').kill p a = some n' := by
    have hpa' := hpa.symm
    simp [Heap.kill_apply, Heap.put_apply, hpa', hn]
  have hq' : (nodes.kill a) p = some q := by
    rw [Heap.kill_apply, if_neg hpa, hq]
  rw [Heap.bag_kill hn', Heap.bag_kill hq']
  congr 1
  apply Heap.SameThrough.bag_eq
  intro x
  simp only [Heap.kill_apply, Heap.put_apply]
  by_cases hxa : x = a
  · simp [hxa]
  · by_cases hxp : x = p
    · simp [hxp]
    · simp [hxa, hxp]

theorem Climbs.rank_le {rank : Addr → ℕ}
    (hf : Forest nodes.live trees (parentOf nodes) (childrenOf nodes))
    (hrank : ∀ x ∈ nodes.live, ∀ y ∈ childrenOf nodes x, rank y < rank x)
    (h : Climbs nodes a b) (ha : a ∈ nodes.live) : b ∈ nodes.live ∧ rank a ≤ rank b := by
  induction h with
  | refl => exact ⟨ha, Nat.le_refl _⟩
  | tail _ hpar ih =>
      obtain ⟨hx, hle⟩ := ih
      have hy := hf.parent _ hx _ hpar
      have hlt := hrank _ hy _ ((hf.kid _ hy _).mpr ⟨hx, hpar⟩)
      exact ⟨hy, by omega⟩

theorem Climbs.eq_of_root (h : Climbs nodes a b) (ha : parentOf nodes a = none) : b = a := by
  rcases Relation.ReflTransGen.cases_head h with heq | ⟨d, hd, -⟩
  · exact heq.symm
  · rw [ha] at hd
    cases hd

theorem SameLinks.climbs (hs : SameLinks nodes nodes') (h : Climbs nodes' a b) :
    Climbs nodes a b := by
  refine Relation.ReflTransGen.mono (fun x y hxy => ?_) _ _ h
  rwa [hs.parentOf_eq] at hxy

/-- The new key moves up to a place where it fits below, and the heap order is restored,
unless it cannot move at all. -/
theorem moveUp_spec (c : Comparator K) (mode : BinheapMode) (nkey : K) {rank : Addr → ℕ}
    {bound : ℕ} (value : V) :
    ∀ (fuel : ℕ) (nodes : Heap (BinomialTreeNode K V)) (a : Addr) (n : BinomialTreeNode K V)
      (swapped : Bool), Forest nodes.live trees (parentOf nodes) (childrenOf nodes) →
      (∀ x ∈ nodes.live, ∀ y ∈ childrenOf nodes x, rank y < rank x) →
      (∀ x ∈ nodes.live, rank x < bound) → bound < fuel + rank a →
      OrderedOff c mode nodes a → nodes a = some n → n.value = value →
      (swapped = true → n.key = nkey ∧ ∀ y ∈ childrenOf nodes a, Beats c.cmp mode nkey nodes y) →
      ∃ nodes' b, moveUp c.cmp mode nkey fuel nodes a swapped = some nodes' ∧
        MovesUp c mode nkey value nodes nodes' a b ∧
        ((b = a → swapped = false → ∀ y ∈ childrenOf nodes a, Beats c.cmp mode nkey nodes y) →
          ∀ x ∈ nodes'.live, ∀ y ∈ childrenOf nodes' x, Above c.cmp mode nodes' x y) := by
  intro fuel
  induction fuel with
  | zero =>
      intro nodes a n swapped _ _ hbound hfuel _ hn _ _
      have hlt := hbound a (Heap.mem_live_of_eq_some hn)
      omega
  | succ fuel ih =>
      intro nodes a n swapped hf hrank hbound hfuel hoff hn hvalue hswapped
      have ha := Heap.mem_live_of_eq_some hn
      have hpar := parentOf_eq hn
      -- The new key stays if there is no parent, or if it does not beat its key.
      have hstay : (∀ p, parentOf nodes a = some p → ¬ Beats c.cmp mode nkey nodes p) →
          ∃ nodes' b, (if swapped then some nodes
              else nodes.modify a fun q => { q with key := nkey }) = some nodes' ∧
            MovesUp c mode nkey value nodes nodes' a b ∧
            ((b = a → swapped = false →
                ∀ y ∈ childrenOf nodes a, Beats c.cmp mode nkey nodes y) →
              ∀ x ∈ nodes'.live, ∀ y ∈ childrenOf nodes' x, Above c.cmp mode nodes' x y) := by
        intro hstop
        obtain ⟨nodes', hrun, hmoves, hord⟩ :=
          moveUp_stay hoff hf hn (fun h => (hswapped h).1) hstop
        rw [hvalue] at hmoves
        refine ⟨nodes', a, hrun, hmoves, fun hbelow => hord ?_⟩
        cases hsw : swapped with
        | true => exact (hswapped hsw).2
        | false => exact hbelow rfl hsw
      cases hp : n.parent with
      | none =>
          rw [hp] at hpar
          obtain ⟨nodes', b, hrun, hrest⟩ := hstay fun p hp' => by
            rw [hpar] at hp'
            cases hp'
          exact ⟨nodes', b, by simpa [moveUp, hn, hp] using hrun, hrest⟩
      | some p =>
          rw [hp] at hpar
          have hplive := hf.parent a ha p hpar
          obtain ⟨q, hq⟩ := Heap.exists_of_mem_live hplive
          by_cases hbeats : HasPrecedence c.cmp mode nkey q.key
          · have hak : a ∈ childrenOf nodes p := (hf.kid p hplive a).mpr ⟨ha, hpar⟩
            have hlt := hrank p hplive a hak
            have hpa : p ≠ a := fun heq => absurd hlt (heq ▸ Nat.lt_irrefl _)
            let q' : BinomialTreeNode K V := { q with key := nkey, value := n.value }
            let n' : BinomialTreeNode K V := { n with key := q.key, value := q.value }
            let nodes₁ := (nodes.put p q').put a n'
            have hn₁ : (nodes.put p q') a = some n := by
              rw [Heap.put_of_ne hpa.symm, hn]
            have hq₁ : nodes₁ p = some q' := by
              rw [Heap.put_of_ne hpa, Heap.put_self hq]
            have hs : SameLinks nodes nodes₁ :=
              (sameLinks_put_item hq nkey n.value).trans (sameLinks_put_item hn₁ q.key q.value)
            have hkeyA : keyOf nodes₁ a = keyOf nodes p := by
              rw [keyOf_put_self hn₁, keyOf_eq hq]
            have hkeys : ∀ x, x ≠ a → x ≠ p → keyOf nodes₁ x = keyOf nodes x := by
              intro x hxa hxp
              rw [keyOf_put_of_ne _ hxa, keyOf_put_of_ne _ hxp]
            have hbeats' : Beats c.cmp mode nkey nodes p := by
              intro k hk
              rw [keyOf_eq hq] at hk
              cases hk
              exact hbeats
            obtain ⟨hoff₁, hbelow₁⟩ := hoff.swap hf ha hpar hbeats' hs hkeyA hkeys
            have hrank₁ : ∀ x ∈ nodes₁.live, ∀ y ∈ childrenOf nodes₁ x, rank y < rank x := by
              intro x hx y hy
              rw [hs.live_eq] at hx
              rw [hs.childrenOf_eq] at hy
              exact hrank x hx y hy
            have hbound₁ : ∀ x ∈ nodes₁.live, rank x < bound := by
              rw [hs.live_eq]
              exact hbound
            obtain ⟨nodes', b, hrun, hmoves, hord⟩ := ih nodes₁ p q' true (hs.forest hf) hrank₁
              hbound₁ (by omega) hoff₁ hq₁ hvalue fun _ => ⟨rfl, hbelow₁⟩
            refine ⟨nodes', b, ?_, ⟨hs.trans hmoves.same, ?_, hmoves.key, ?_, ?_, ?_, ?_⟩, ?_⟩
            · simp only [moveUp, hn, hp, hq, Option.bind_eq_bind, Option.bind_some, if_pos hbeats,
                Heap.modify_eq_some _ hq]
              show ((nodes.put p q').modify a _).bind _ = _
              rw [Heap.modify_eq_some _ hn₁]
              exact hrun
            · exact (hs.climbs hmoves.climbs).head hpar
            · intro x hx hxb
              have hxa : x ≠ a := by
                rintro rfl
                rw [hx] at hpar
                cases hpar
              rw [← hs.parentOf_eq] at hx
              have hxp : x ≠ p := by
                rintro rfl
                exact hxb (hmoves.climbs.eq_of_root hx).symm
              rw [hmoves.root x hx hxb, hkeys x hxa hxp]
            · intro _ k hk
              have hle := ((hs.climbs hmoves.climbs).rank_le hf hrank hplive).2
              have hba : b ≠ a := by
                rintro rfl
                omega
              by_cases hbp : b = p
              · rw [hbp] at hk
                exact hbeats' k hk
              · rw [← hkeys b hba hbp] at hk
                exact hmoves.beats hbp k hk
            · intro g hg hbeatsG
              obtain ⟨hb, hle⟩ := (hs.climbs hmoves.climbs).rank_le hf hrank hplive
              have hglive := hf.parent b hb g hg
              have hltG := hrank g hglive b ((hf.kid g hglive b).mpr ⟨hb, hg⟩)
              have hga : g ≠ a := by
                rintro rfl
                omega
              have hgp : g ≠ p := by
                rintro rfl
                omega
              refine hmoves.stop g (by rw [hs.parentOf_eq, hg]) fun k hk => hbeatsG k ?_
              rwa [hkeys g hga hgp] at hk
            · rw [hmoves.bag, bag_swap hn hq hpa]
            · exact fun _ => hord fun _ hfalse => nomatch hfalse
          · obtain ⟨nodes', b, hrun, hrest⟩ := hstay fun p' hp' => by
              rw [hpar] at hp'
              cases hp'
              exact fun h => hbeats (h q.key (keyOf_eq hq))
            refine ⟨nodes', b, ?_, hrest⟩
            simp only [moveUp, hn, hp, hq, Option.bind_eq_bind, Option.bind_some, if_neg hbeats]
            exact hrun

/-! ## The head -/

/-- The key of a node has precedence over the new key. -/
def Covers (cmp : K → K → ℤ) (mode : BinheapMode) (nodes : Heap (BinomialTreeNode K V))
    (nkey : K) (x : Addr) : Prop :=
  ∀ k, keyOf nodes x = some k → HasPrecedence cmp mode k nkey

/-- The cached head stays extreme when a node gets a new key: either it is the node, and
the new key has precedence over all other keys, or its own key has precedence over the new
one, or the new key can move up to it. -/
def HeadKeepsUp (cmp : K → K → ℤ) (bh : BinHeap K V) (a : Addr) (nkey : K) : Prop :=
  ∀ r, bh.head = some r →
    if r = a then ∀ x ∈ bh.nodes.live, x ≠ a → Beats cmp bh.mode nkey bh.nodes x
    else Covers cmp bh.mode bh.nodes nkey r ∨ a ∈ subtree bh.nodes bh.nodes.brk r

instance decidableBeats (cmp : K → K → ℤ) (mode : BinheapMode) (nkey : K)
    (nodes : Heap (BinomialTreeNode K V)) (x : Addr) : Decidable (Beats cmp mode nkey nodes x) :=
  match h : keyOf nodes x with
  | none => isTrue (by simp [Beats, h])
  | some k => decidable_of_iff (HasPrecedence cmp mode nkey k) (by simp [Beats, h])

instance decidableCovers (cmp : K → K → ℤ) (mode : BinheapMode)
    (nodes : Heap (BinomialTreeNode K V)) (nkey : K) (x : Addr) :
    Decidable (Covers cmp mode nodes nkey x) :=
  match h : keyOf nodes x with
  | none => isTrue (by simp [Covers, h])
  | some k => decidable_of_iff (HasPrecedence cmp mode k nkey) (by simp [Covers, h])

instance decidableHeadKeepsUp (cmp : K → K → ℤ) (bh : BinHeap K V) (a : Addr) (nkey : K) :
    Decidable (HeadKeepsUp cmp bh a nkey) :=
  match h : bh.head with
  | none => isTrue (by simp [HeadKeepsUp, h])
  | some r =>
      decidable_of_iff
        (if r = a then ∀ x ∈ bh.nodes.live, x ≠ a → Beats cmp bh.mode nkey bh.nodes x
          else Covers cmp bh.mode bh.nodes nkey r ∨ a ∈ subtree bh.nodes bh.nodes.brk r)
        (by simp only [HeadKeepsUp, h, Option.some.injEq, forall_eq'])

theorem Ordered.above_of_climbs (h : Ordered c mode nodes trees) (hclimbs : Climbs nodes a b)
    (ha : a ∈ nodes.live) : b ∈ nodes.live ∧ Above c.cmp mode nodes b a := by
  induction hclimbs with
  | refl => exact ⟨ha, above_refl c a⟩
  | tail _ hpar ih =>
      obtain ⟨hx, habove⟩ := ih
      have hy := h.forest.parent _ hx _ hpar
      exact ⟨hy, above_trans c hx (h.above _ hy _ ((h.forest.kid _ hy _).mpr ⟨hx, hpar⟩)) habove⟩

theorem keyOf_mem_bag {x : Addr} {k : K} (hk : keyOf nodes x = some k) :
    ∃ v, (k, v) ∈ nodes.bag item := by
  obtain ⟨m, hm, rfl⟩ := Option.map_eq_some_iff.mp hk
  exact ⟨m.value, Heap.mem_bag_of_eq_some hm⟩

/-- A node has precedence over all of them if its key has precedence over all keys in the
bag. -/
theorem extreme_iff_bag {k : K} (hk : keyOf nodes a = some k) :
    Extreme c.cmp mode nodes a ↔ ∀ i ∈ nodes.bag item, HasPrecedence c.cmp mode k i.1 := by
  constructor
  · intro hext i hi
    obtain ⟨b, m, hm, rfl⟩ := Heap.exists_of_mem_bag hi
    exact hext b (Heap.mem_live_of_eq_some hm) k m.key hk (keyOf_eq hm)
  · intro hall b hb k' l hk' hl
    rw [hk] at hk'
    cases hk'
    obtain ⟨v, hv⟩ := keyOf_mem_bag hl
    exact hall _ hv

theorem exists_of_mem_bag_kill {i : K × V} (hi : i ∈ (nodes.kill a).bag item) :
    ∃ x m, x ≠ a ∧ nodes x = some m ∧ item m = i := by
  obtain ⟨x, m, hm, heq⟩ := Heap.exists_of_mem_bag hi
  rw [Heap.kill_apply] at hm
  by_cases hxa : x = a
  · rw [if_pos hxa] at hm
    cases hm
  · rw [if_neg hxa] at hm
    exact ⟨x, m, hxa, hm, heq⟩

theorem mem_bag_kill {x : Addr} {m : BinomialTreeNode K V} (hxa : x ≠ a) (hm : nodes x = some m) :
    item m ∈ (nodes.kill a).bag item := by
  apply Heap.mem_bag_of_eq_some (a := x)
  rw [Heap.kill_apply, if_neg hxa, hm]

/-- After the move, the head is extreme exactly if it keeps up. -/
theorem MovesUp.head_iff {value : V} (h : Consistent c bh) (ha : a ∈ bh.nodes.live)
    (hm : MovesUp c bh.mode nkey value bh.nodes nodes' a b) {r : Addr} (hr : bh.head = some r) :
    HeadKeepsUp c.cmp bh a nkey ↔ Extreme c.cmp bh.mode nodes' r := by
  obtain ⟨hroot, htop⟩ := h.headTop r hr
  have hrlive := h.ordered.trees_live r hroot
  have hrpar := h.ordered.forest.par_of_root hroot
  obtain ⟨q, hq⟩ := Heap.exists_of_mem_live hrlive
  have hkeeps : HeadKeepsUp c.cmp bh a nkey ↔
      if r = a then ∀ x ∈ bh.nodes.live, x ≠ a → Beats c.cmp bh.mode nkey bh.nodes x
      else Covers c.cmp bh.mode bh.nodes nkey r ∨ a ∈ subtree bh.nodes bh.nodes.brk r := by
    constructor
    · exact fun hall => hall r hr
    · intro hcond r' hr'
      rw [hr] at hr'
      cases hr'
      exact hcond
  rw [hkeeps]
  by_cases hra : r = a
  · rw [if_pos hra]
    subst hra
    have hbr := hm.climbs.eq_of_root hrpar
    subst hbr
    rw [extreme_iff_bag hm.key, hm.bag]
    constructor
    · intro hall i hi
      rcases Multiset.mem_cons.mp hi with rfl | hi
      · exact hasPrecedence_refl c bh.mode nkey
      · obtain ⟨x, m, hxb, hx, rfl⟩ := exists_of_mem_bag_kill hi
        exact hall x (Heap.mem_live_of_eq_some hx) hxb m.key (keyOf_eq hx)
    · intro hall x hx hxb k hk
      obtain ⟨m, hm'⟩ := Heap.exists_of_mem_live hx
      rw [keyOf_eq hm'] at hk
      cases hk
      exact hall (item m) (Multiset.mem_cons_of_mem (mem_bag_kill hxb hm'))
  · rw [if_neg hra, mem_subtree_iff_climbs h.ordered.forest ha hrlive]
    by_cases hrb : r = b
    · subst hrb
      refine iff_of_true (Or.inr hm.climbs) ?_
      rw [extreme_iff_bag hm.key, hm.bag]
      intro i hi
      rcases Multiset.mem_cons.mp hi with rfl | hi
      · exact hasPrecedence_refl c bh.mode nkey
      · obtain ⟨x, m, -, hx, rfl⟩ := exists_of_mem_bag_kill hi
        exact hasPrecedence_trans c (hm.beats hra q.key (keyOf_eq hq))
          (htop x (Heap.mem_live_of_eq_some hx) q.key m.key (keyOf_eq hq) (keyOf_eq hx))
    · have hkey : keyOf nodes' r = some q.key := by rw [hm.root r hrpar hrb, keyOf_eq hq]
      have hcovers : Climbs bh.nodes a r → Covers c.cmp bh.mode bh.nodes nkey r := by
        intro hclimbs k hk
        rw [keyOf_eq hq] at hk
        cases hk
        -- Above the place of the new key there is a node that does not give way.
        have hbr : Climbs bh.nodes b r := by
          refine (Relation.ReflTransGen.total_of_right_unique ?_ hclimbs hm.climbs).resolve_left ?_
          · intro x y z hxy hxz
            rw [hxy] at hxz
            exact Option.some.inj hxz
          · exact fun hback => hrb (Climbs.eq_of_root hback hrpar).symm
        rcases Relation.ReflTransGen.cases_head hbr with heq | ⟨g, hg, hgr⟩
        · exact absurd heq.symm hrb
        · have hblive := (h.ordered.above_of_climbs hm.climbs ha).1
          have hglive := h.ordered.forest.parent b hblive g hg
          obtain ⟨m, hm'⟩ := Heap.exists_of_mem_live hglive
          have habove := (h.ordered.above_of_climbs hgr hglive).2 q.key m.key (keyOf_eq hq)
            (keyOf_eq hm')
          refine hasPrecedence_trans c habove ?_
          refine (hasPrecedence_total c bh.mode m.key nkey).resolve_right fun hbeats => ?_
          refine hm.stop g hg fun k hk => ?_
          rw [keyOf_eq hm'] at hk
          cases hk
          exact hbeats
      rw [extreme_iff_bag hkey, hm.bag]
      constructor
      · intro hcond i hi
        rcases Multiset.mem_cons.mp hi with rfl | hi
        · exact hcond.elim id hcovers q.key (keyOf_eq hq)
        · obtain ⟨x, m, -, hx, rfl⟩ := exists_of_mem_bag_kill hi
          exact htop x (Heap.mem_live_of_eq_some hx) q.key m.key (keyOf_eq hq) (keyOf_eq hx)
      · intro hall
        refine Or.inl fun k hk => ?_
        rw [keyOf_eq hq] at hk
        cases hk
        exact hall _ (Multiset.mem_cons_self _ _)

/-! ## The four functions -/

/-- The extreme item of the end the heap is organised for is reported, if there is any
item. -/
def ReportsMode (c : Comparator K) (bh : BinHeap K V) : Prop :=
  (contents bh = 0 ∧ modeExtremum c.cmp bh = some (-1, none)) ∨
    ∃ i, IsExtremum c bh.mode (contents bh) i ∧ modeExtremum c.cmp bh = some (0, some i)

/-- One item, if there is any, has its key changed, and the others stay as they are. -/
def ChangesOneKey (change : K → K) (bag bag' : Multiset (K × V)) : Prop :=
  (bag = 0 ∧ bag' = 0) ∨
    ∃ i rest, bag = i ::ₘ rest ∧ bag' = (change i.1, i.2) ::ₘ rest

/-- The change of a key does what it should: it changes one key, keeps the heap order, and
leaves a heap that reports the extreme item. -/
def ChangesRightly (c : Comparator K) (change : K → K) (bh bh' : BinHeap K V) : Prop :=
  ChangesOneKey change (contents bh) (contents bh') ∧
    Ordered c bh'.mode bh'.nodes bh'.trees ∧ ReportsMode c bh'

/-- The key after a change by an amount that can be negated. -/
def changedKey (cbs : BinheapCallbacks K) (okey : K) (incr : ℤ) : K :=
  if incr = 0 then okey
  else if 0 < incr then cbs.incr okey incr
  else cbs.decr okey (-incr)

/-- The amount can be negated, or there is no key to be changed. -/
def AmountFits (bh : BinHeap K V) (n : CInt) : Prop := INT_MIN < n.1 ∨ bh.count = 0

instance decidableAmountFits (bh : BinHeap K V) (n : CInt) : Decidable (AmountFits bh n) :=
  inferInstanceAs (Decidable (INT_MIN < n.1 ∨ bh.count = 0))

/-- The head keeps up with the change of the extreme key of one end. -/
def ChangeFits (cbs : BinheapCallbacks K) (bh : BinHeap K V) (side : BinheapMode)
    (incr : ℤ) : Prop :=
  ∀ a i, getExtremum cbs.cmp bh side = some (some a, i) → ∀ n, bh.nodes a = some n →
    HeadKeepsUp cbs.cmp bh a (changedKey cbs n.key incr)

instance decidableChangeFits (cbs : BinheapCallbacks K) (bh : BinHeap K V)
    (side : BinheapMode) (incr : ℤ) : Decidable (ChangeFits cbs bh side incr) :=
  match h : getExtremum cbs.cmp bh side with
  | none => isTrue (by simp [ChangeFits, h])
  | some (none, _) => isTrue (by simp [ChangeFits, h])
  | some (some a, _) =>
      match hn : bh.nodes a with
      | none => isTrue (by simp [ChangeFits, h, hn])
      | some n =>
          decidable_of_iff (HeadKeepsUp cbs.cmp bh a (changedKey cbs n.key incr))
            (by simp [ChangeFits, h, hn])

theorem reportsMode_iff {r : Addr} (hr : bh.head = some r) (hn : bh.nodes r = some n) :
    ReportsMode c bh ↔ Extreme c.cmp bh.mode bh.nodes r := by
  have hget : getExtremum c.cmp bh bh.mode = some (some r, 0) := by
    rw [getExtremum, if_pos ⟨rfl, by rw [hr]; rfl⟩, hr]
  have hpeek : modeExtremum c.cmp bh = some (0, some (item n)) := by
    rw [modeExtremum_eq]
    simp [peekExtremum, hget, hn, item]
  rw [ReportsMode, hpeek]
  constructor
  · rintro (⟨-, hnone⟩ | ⟨i, hi, heq⟩)
    · cases hnone
    · cases heq
      exact extreme_of_isExtremum hn hi
  · exact fun hext => Or.inr ⟨item n, isExtremum_of_above hext hn, rfl⟩

theorem Consistent.reportsMode (h : Consistent c bh) : ReportsMode c bh := by
  rw [ReportsMode, modeExtremum_eq]
  exact h.peekExtremum_mode

/-- A heap whose nodes have moved their items is consistent exactly if it is in order and
reports the extreme item. -/
theorem Consistent.relinked_iff (h : Consistent c bh) (hs : SameLinks bh.nodes nodes') :
    Consistent c { bh with nodes := nodes' } ↔
      Ordered c bh.mode nodes' bh.trees ∧ ReportsMode c { bh with nodes := nodes' } := by
  constructor
  · exact fun h' => ⟨h'.ordered, h'.reportsMode⟩
  · rintro ⟨hord, hreports⟩
    refine ⟨hord, ?_, ?_, ?_⟩
    · show bh.count = (nodes'.live.card : ℤ)
      rw [hs.live_eq, h.count]
    · intro hnone
      show nodes'.live = ∅
      rw [hs.live_eq]
      exact h.headNone hnone
    · intro r hr
      have hroot := (h.headTop r hr).1
      obtain ⟨m, hm⟩ := Heap.exists_of_mem_live (hord.trees_live r hroot)
      have hm' : ({ bh with nodes := nodes' } : BinHeap K V).nodes r = some m := hm
      exact ⟨hroot, (reportsMode_iff hr hm').mp hreports⟩

/-- A new key at the head, or at a leaf. -/
theorem Consistent.moveUp_correct_iff (h : Consistent c bh) (hn : bh.nodes a = some n)
    (hplace : bh.head = some a ∨ childrenOf bh.nodes a = []) (nkey : K) :
    ∃ nodes', moveUp c.cmp bh.mode nkey (bh.nodes.brk + 1) bh.nodes a false = some nodes' ∧
      SameLinks bh.nodes nodes' ∧
      nodes'.bag item = (nkey, n.value) ::ₘ (bh.nodes.kill a).bag item ∧
      (HeadKeepsUp c.cmp bh a nkey ↔
        Ordered c bh.mode nodes' bh.trees ∧ ReportsMode c { bh with nodes := nodes' }) := by
  have ha := Heap.mem_live_of_eq_some hn
  obtain ⟨rank, hrank, hcard⟩ := h.ordered.forest.exists_rank_lt
  have hbound : ∀ x ∈ bh.nodes.live, rank x < bh.nodes.brk :=
    fun x hx => Nat.lt_of_lt_of_le (hcard x hx) bh.nodes.card_live_le_brk
  obtain ⟨nodes', b, hrun, hm, hord⟩ := moveUp_spec c bh.mode nkey
    n.value (bh.nodes.brk + 1) bh.nodes a n false h.ordered.forest hrank hbound (by omega)
    (h.ordered.orderedOff ha) hn rfl nofun
  refine ⟨nodes', hrun, hm.same, hm.bag, ?_⟩
  obtain ⟨r, hr⟩ : ∃ r, bh.head = some r := by
    cases hhead : bh.head with
    | none => exact absurd ha (h.headNone hhead ▸ Finset.notMem_empty a)
    | some r => exact ⟨r, rfl⟩
  obtain ⟨hroot, -⟩ := h.headTop r hr
  have hforest := hm.same.forest h.ordered.forest
  obtain ⟨m, hm'⟩ := Heap.exists_of_mem_live (hforest.mem_of_root hroot)
  have hm'' : ({ bh with nodes := nodes' } : BinHeap K V).nodes r = some m := hm'
  have hreports : ReportsMode c { bh with nodes := nodes' } ↔ _ := reportsMode_iff hr hm''
  rw [hreports, hm.head_iff h ha hr]
  refine ⟨fun hext => ⟨⟨hforest, hord ?_⟩, hext⟩, fun hboth => hboth.2⟩
  intro _ _ y hy
  rcases hplace with hhead | hleaf
  · rw [hhead] at hr
    cases hr
    have hkeeps := (hm.head_iff h ha hhead).mpr hext a hhead
    rw [if_pos rfl] at hkeeps
    refine hkeeps y (h.ordered.forest.mem_of_kid ha hy) ?_
    rintro rfl
    exact not_mem_childrenOf_self h.ordered.forest ha hy
  · rw [hleaf] at hy
    cases hy

/-- The search for an extreme node ends at the head or at a leaf. -/
theorem Consistent.getExtremum_place (h : Consistent c bh) {i : ℕ}
    (hget : getExtremum c.cmp bh side = some (some a, i)) :
    bh.head = some a ∨ childrenOf bh.nodes a = [] := by
  rw [getExtremum] at hget
  by_cases hcached : bh.mode = side ∧ bh.head.isSome
  · rw [if_pos hcached] at hget
    simp only [Option.some.injEq, Prod.mk.injEq] at hget
    exact Or.inl hget.1
  · rw [if_neg hcached] at hget
    obtain ⟨choice, -, hget⟩ := Option.bind_eq_some_iff.mp hget
    cases choice with
    | none => cases hget
    | some j =>
        obtain ⟨r, hr, hget⟩ := Option.bind_eq_some_iff.mp hget
        have hrlive := h.ordered.trees_live r (List.mem_of_getElem? hr)
        by_cases hmode : bh.mode = side
        · have hhead : bh.head = none := by
            cases hhead : bh.head with
            | none => rfl
            | some q => exact absurd ⟨hmode, by rw [hhead]; rfl⟩ hcached
          rw [h.headNone hhead] at hrlive
          exact absurd hrlive (Finset.notMem_empty r)
        · rw [if_neg hmode] at hget
          obtain ⟨leaf, hleaf, hget⟩ := Option.bind_eq_some_iff.mp hget
          cases hget
          obtain ⟨rank, hrank, hcard⟩ := h.ordered.forest.exists_rank_lt
          obtain ⟨l, -, hdesc, hnil, -⟩ := descend_spec c h.ordered.forest hrank side
            bh.nodes.brk r hrlive (Nat.lt_of_lt_of_le (hcard r hrlive) bh.nodes.card_live_le_brk)
          rw [hleaf] at hdesc
          cases hdesc
          exact Or.inr hnil

theorem Consistent.headKeepsUp_same (h : Consistent c bh) (hn : bh.nodes a = some n) :
    HeadKeepsUp c.cmp bh a n.key := by
  intro r hr
  have htop := (h.headTop r hr).2
  by_cases hra : r = a
  · rw [if_pos hra]
    subst hra
    exact fun x hx _ k hk => htop x hx n.key k (keyOf_eq hn) hk
  · rw [if_neg hra]
    exact Or.inl fun k hk => htop a (Heap.mem_live_of_eq_some hn) k n.key hk (keyOf_eq hn)

theorem newKey_eq {cbs : BinheapCallbacks K} {incr : CInt} (h : INT_MIN < incr.1) (okey : K) :
    newKey cbs okey incr = some (changedKey cbs okey incr.1) := by
  rw [newKey, changedKey, negInt, dif_pos h]
  split
  · rfl
  · split <;> rfl

/-- The negation in `binomial_tree_node_increase_key` overflows. -/
theorem newKey_eq_none {cbs : BinheapCallbacks K} {incr : CInt} (h : ¬ INT_MIN < incr.1) (okey : K) :
    newKey cbs okey incr = none := by
  have hneg : INT_MIN < 0 := by decide
  rw [newKey, negInt, dif_neg h, if_neg (by omega), if_neg (by omega)]
  rfl

/-- The change of an extreme key of a consistent heap is right exactly if the head keeps
up with it. -/
theorem Consistent.changeExtremum_iff (h : Consistent c bh) {cbs : BinheapCallbacks K}
    (hcmp : cbs.cmp = c.cmp) (side : BinheapMode) {m : CInt} (hm : INT_MIN < m.1) {incr : ℤ}
    (hincr : m.1 = incr) :
    ∃ bh', changeExtremum cbs bh side (some m) = some bh' ∧ bh'.mode = bh.mode ∧
      (ChangeFits cbs bh side incr ↔ ChangesRightly c (changedKey cbs · incr) bh bh') ∧
      (ChangesRightly c (changedKey cbs · incr) bh bh' → Consistent c bh') := by
  obtain ⟨⟨node, i⟩, hget, hfinds⟩ := getExtremum_finds c h.ordered h.headTop side
  have hget' : getExtremum cbs.cmp bh side = some (node, i) := by rw [hcmp, hget]
  cases node with
  | none =>
      have hzero : contents bh = 0 := Heap.bag_eq_zero_iff.mpr (hfinds.none rfl)
      refine ⟨bh, by simp [changeExtremum, hget'], rfl, iff_of_true ?_ ?_, fun _ => h⟩
      · intro a j hsome
        rw [hget'] at hsome
        cases hsome
      · exact ⟨Or.inl ⟨hzero, hzero⟩, h.ordered, h.reportsMode⟩
  | some a =>
      obtain ⟨n, hn⟩ := Heap.exists_of_mem_live (hfinds.mem a rfl)
      have hfits : ChangeFits cbs bh side incr ↔ HeadKeepsUp c.cmp bh a (changedKey cbs n.key incr) := by
        constructor
        · intro hall
          rw [← hcmp]
          exact hall a i hget' n hn
        · intro hkeeps a' j hsome n' hn'
          rw [hget'] at hsome
          cases hsome
          rw [hn] at hn'
          cases hn'
          rwa [hcmp]
      rw [hfits]
      by_cases hzero : incr = 0
      · have hkey : ∀ k, changedKey cbs k incr = k := fun k => if_pos hzero
        refine ⟨bh, ?_, rfl, iff_of_true ?_ ?_, fun _ => h⟩
        · simp [changeExtremum, hget', binomialTreeNodeIncreaseKey, hincr, hzero]
        · rw [hkey]
          exact h.headKeepsUp_same hn
        · have hbag : contents bh = item n ::ₘ (bh.nodes.kill a).bag item := Heap.bag_kill hn
          refine ⟨Or.inr ⟨item n, _, hbag, ?_⟩, h.ordered, h.reportsMode⟩
          simp only [hkey]
          exact hbag
      · obtain ⟨nodes', hrun, hs, hbag, hiff⟩ :=
          h.moveUp_correct_iff hn (h.getExtremum_place hget) (changedKey cbs n.key incr)
        have hone : ChangesOneKey (changedKey cbs · incr) (contents bh)
            (contents { bh with nodes := nodes' }) :=
          Or.inr ⟨item n, _, Heap.bag_kill hn, hbag⟩
        refine ⟨{ bh with nodes := nodes' }, ?_, rfl, ?_, ?_⟩
        · rw [← hcmp] at hrun
          simp [changeExtremum, hget', binomialTreeNodeIncreaseKey, newKey_eq hm, hincr, if_neg hzero,
            hn, hrun]
        · rw [hiff]
          exact ⟨fun hright => ⟨hone, hright⟩, fun hright => hright.2⟩
        · exact fun hright => (h.relinked_iff hs).mpr hright.2

/-- With an amount that cannot be negated, the change of a key has no result. -/
theorem changeExtremum_overflow {cbs : BinheapCallbacks K} {side : BinheapMode} {n : CInt}
    {amount : Option CInt} (hn : ¬ INT_MIN < n.1) (hamount : amount = some n ∨ amount = negInt n)
    {a : Addr} {i : ℕ} (hget : getExtremum cbs.cmp bh side = some (some a, i)) :
    changeExtremum cbs bh side amount = none := by
  rcases hamount with rfl | rfl
  · have hneg : INT_MIN < 0 := by decide
    simp only [changeExtremum, hget, Option.bind_eq_bind, Option.bind_some,
      binomialTreeNodeIncreaseKey]
    rw [if_neg (by omega)]
    simp [newKey_eq_none hn]
  · simp [changeExtremum, hget, negInt, dif_neg hn]

/-- With any amount, a change is right exactly if in addition the amount can be negated, and then
the heap is consistent. -/
theorem Consistent.changeExtremum_right_iff (h : Consistent c bh) {cbs : BinheapCallbacks K}
    (hcmp : cbs.cmp = c.cmp) (side : BinheapMode) {n : CInt} {amount : Option CInt} {m : ℤ}
    (hamount : amount = some n ∧ m = n.1 ∨ amount = negInt n ∧ m = -n.1) :
    ((∃ bh', changeExtremum cbs bh side amount = some bh' ∧
        ChangesRightly c (changedKey cbs · m) bh bh') ↔
      AmountFits bh n ∧ ChangeFits cbs bh side m) ∧
    (AmountFits bh n ∧ ChangeFits cbs bh side m →
      ∃ bh', changeExtremum cbs bh side amount = some bh' ∧ Consistent c bh' ∧
        bh'.mode = bh.mode) := by
  by_cases hn : INT_MIN < n.1
  · have hfits : AmountFits bh n := Or.inl hn
    have hvalue : ∃ a : CInt, amount = some a ∧ INT_MIN < a.1 ∧ a.1 = m := by
      rcases hamount with ⟨rfl, rfl⟩ | ⟨rfl, rfl⟩
      · exact ⟨n, rfl, hn, rfl⟩
      · refine ⟨⟨-n.1, neg_inRange hn⟩, dif_pos hn, ?_, rfl⟩
        obtain ⟨-, hle⟩ := n.2
        have hmin : INT_MIN = -2 ^ 31 := rfl
        have hmax : INT_MAX = 2 ^ 31 - 1 := rfl
        show _ < -n.1
        omega
    obtain ⟨a, rfl, ha, hm⟩ := hvalue
    obtain ⟨bh', hrun, hmode, hiff, hcons⟩ := h.changeExtremum_iff hcmp side ha hm
    rw [and_iff_right hfits]
    refine ⟨⟨?_, fun hright => ⟨bh', hrun, hiff.mp hright⟩⟩,
      fun hright => ⟨bh', hrun, hcons (hiff.mp hright), hmode⟩⟩
    rintro ⟨bh'', hrun', hright⟩
    cases hrun.symm.trans hrun'
    exact hiff.mpr hright
  obtain ⟨⟨node, i⟩, hget, hfinds⟩ := getExtremum_finds c h.ordered h.headTop side
  have hget' : getExtremum cbs.cmp bh side = some (node, i) := by rw [hcmp, hget]
  cases node with
  | none =>
      have hempty : bh.nodes.live = ∅ := hfinds.none rfl
      have hzero : contents bh = 0 := Heap.bag_eq_zero_iff.mpr hempty
      have hcount : bh.count = 0 := by rw [h.count, hempty]; rfl
      have hrun : changeExtremum cbs bh side amount = some bh := by simp [changeExtremum, hget']
      have hfits : ChangeFits cbs bh side m := by
        intro a j hsome
        rw [hget'] at hsome
        cases hsome
      have hboth : AmountFits bh n ∧ ChangeFits cbs bh side m := ⟨Or.inr hcount, hfits⟩
      exact ⟨iff_of_true ⟨bh, hrun, Or.inl ⟨hzero, hzero⟩, h.ordered, h.reportsMode⟩ hboth,
        fun _ => ⟨bh, hrun, h, rfl⟩⟩
  | some a =>
      have hover := changeExtremum_overflow hn (hamount.imp And.left And.left) hget'
      have hnot : ¬ AmountFits bh n := by
        rintro (hlt | hcount)
        · exact hn hlt
        · have hmem := hfinds.mem a rfl
          rw [h.count, Int.natCast_eq_zero, Finset.card_eq_zero] at hcount
          rw [hcount] at hmem
          exact absurd hmem (Finset.notMem_empty a)
      refine ⟨iff_of_false ?_ fun hboth => hnot hboth.1, fun hboth => absurd hboth.1 hnot⟩
      rintro ⟨bh', hrun, -⟩
      rw [hover] at hrun
      cases hrun

end BinHeap
end LibHL
