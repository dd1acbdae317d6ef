import LibHL.Trie.Invariant

/-!
# Inserting into a trie

A new child extends the walks by the one key that leads to it, and setting a
value concerns the one key that leads to the node.  An insert is a number of new
children followed by one value.
-/

namespace LibHL
namespace Trie

variable {V : Type}

/-- The value at a key, with its size. -/
def valueAt (nodes : Heap (TrieNode V)) (root : Addr) (key : List UInt8) :
    Option (ValuePtr V × ℕ) :=
  (walk nodes root key).bind fun a => (nodes a).bind fun n => n.value.map fun p => (p, n.vsize)

theorem valueAt_of_walk {nodes : Heap (TrieNode V)} {root a : Addr} {key : List UInt8}
    {n : TrieNode V} (h : walk nodes root key = some a) (hn : nodes a = some n) :
    valueAt nodes root key = n.value.map fun p => (p, n.vsize) := by
  rw [valueAt, h, Option.bind_some, hn, Option.bind_some]

theorem valueAt_of_walk_none {nodes : Heap (TrieNode V)} {root : Addr} {key : List UInt8}
    (h : walk nodes root key = none) : valueAt nodes root key = none := by
  rw [valueAt, h, Option.bind_none]

theorem shape_trieCreate (freeValueCb : Bool) :
    Shape (trieCreate freeValueCb : Trie V).nodes (trieCreate freeValueCb : Trie V).root := by
  have hcell : ∀ a n, (trieCreate freeValueCb : Trie V).nodes a = some n → n = newNode := by
    intro a n hn
    rw [trieCreate, Heap.alloc_apply] at hn
    by_cases ha : a = (Heap.empty : Heap (TrieNode V)).brk
    · rw [if_pos ha] at hn
      exact (Option.some.inj hn).symm
    · rw [if_neg ha] at hn
      cases hn
  constructor
  · exact ⟨newNode, rfl, rfl⟩
  · intro a n c b hn hc
    rw [hcell a n hn] at hc
    cases hc
  · intro a n c b hn hc
    rw [hcell a n hn] at hc
    cases hc
  · intro b m a hm hpar
    rw [hcell b m hm] at hpar
    cases hpar
  · intro a n hn
    rw [hcell a n hn]
    simp [childSet, newNode]

/-! ## A new child -/

/-- One round of the second loop of `trie_insert`. -/
def addChild (nodes : Heap (TrieNode V)) (a : Addr) (n : TrieNode V) (c : UInt8) :
    Heap (TrieNode V) :=
  (nodes.alloc { newNode with parent := some a, pidx := c }).1.put a
    { n.setChild c (some nodes.brk) with numChildren := n.numChildren + 1 }

section AddChild

variable {nodes : Heap (TrieNode V)} {root a : Addr} {n : TrieNode V} {p : List UInt8} {c : UInt8}

theorem addChild_new (hn : nodes a = some n) :
    addChild nodes a n c nodes.brk = some { newNode with parent := some a, pidx := c } := by
  have hne : nodes.brk ≠ a := (Heap.lt_brk_of_eq_some hn).ne'
  rw [addChild, Heap.put_of_ne hne, Heap.alloc_apply, if_pos rfl]

theorem addChild_self (hn : nodes a = some n) :
    addChild nodes a n c a =
      some { n.setChild c (some nodes.brk) with numChildren := n.numChildren + 1 } := by
  refine Heap.put_self (w := n) ?_
  rw [Heap.alloc_apply, if_neg (Heap.lt_brk_of_eq_some hn).ne, hn]

theorem addChild_of_ne {x : Addr} (hxa : x ≠ a) (hx : x ≠ nodes.brk) :
    addChild nodes a n c x = nodes x := by
  rw [addChild, Heap.put_of_ne hxa, Heap.alloc_apply, if_neg hx]

/-- The cells after a new child: the parent, the child, and the others. -/
theorem addChild_cases (hn : nodes a = some n) {x : Addr} {m : TrieNode V}
    (hm : addChild nodes a n c x = some m) :
    (x = a ∧ m = { n.setChild c (some nodes.brk) with numChildren := n.numChildren + 1 }) ∨
    (x = nodes.brk ∧ m = { newNode with parent := some a, pidx := c }) ∨
    (x ≠ a ∧ x ≠ nodes.brk ∧ nodes x = some m) := by
  by_cases hxa : x = a
  · subst hxa
    rw [addChild_self hn] at hm
    exact Or.inl ⟨rfl, (Option.some.inj hm).symm⟩
  · by_cases hx : x = nodes.brk
    · subst hx
      rw [addChild_new hn] at hm
      exact Or.inr (Or.inl ⟨rfl, (Option.some.inj hm).symm⟩)
    · rw [addChild_of_ne hxa hx] at hm
      exact Or.inr (Or.inr ⟨hxa, hx, hm⟩)

theorem childOf_addChild_new (hn : nodes a = some n) (d : UInt8) :
    childOf (addChild nodes a n c) nodes.brk d = none := by
  rw [childOf_of_eq_some (addChild_new hn)]
  rfl

theorem childOf_addChild_self (hn : nodes a = some n) :
    childOf (addChild nodes a n c) a c = some nodes.brk := by
  rw [childOf_of_eq_some (addChild_self hn)]
  exact setChild_child_self n c _

theorem childOf_addChild_of_ne (hn : nodes a = some n) {x : Addr} {d : UInt8}
    (hx : x ≠ nodes.brk) (hne : x ≠ a ∨ d ≠ c) :
    childOf (addChild nodes a n c) x d = childOf nodes x d := by
  by_cases hxa : x = a
  · subst hxa
    have hd : d ≠ c := hne.resolve_left fun h => h rfl
    rw [childOf_of_eq_some (addChild_self hn), childOf_of_eq_some hn]
    exact setChild_child_of_ne _ hd
  · rw [childOf, childOf, addChild_of_ne hxa hx]

theorem Shape.walk_addChild (h : Shape nodes root) (hp : walk nodes root p = some a)
    (hn : nodes a = some n) (hc : n.child c = none) (key : List UInt8) :
    walk (addChild nodes a n c) root key =
      if key = p ++ [c] then some nodes.brk else walk nodes root key := by
  have hnew : walk nodes root (p ++ [c]) = none := by
    rw [walk_snoc_of_walk hp, childOf_of_eq_some hn, hc]
  refine walk_eq_of_snoc (fun key => if key = p ++ [c] then some nodes.brk
    else walk nodes root key) ?_ ?_ key
  · rw [if_neg (by simp)]
    rfl
  · intro q d
    by_cases hq : q = p ++ [c]
    · subst hq
      rw [if_neg (by simp), if_pos rfl, Option.bind_some, childOf_addChild_new hn,
        walk_none_of_initial (List.prefix_append _ _) hnew]
    · rw [if_neg hq]
      cases hw : walk nodes root q with
      | none =>
          have hne : q ++ [d] ≠ p ++ [c] := by
            intro heq
            rw [(List.append_inj' heq rfl).1, hp] at hw
            cases hw
          rw [if_neg hne, walk_snoc, hw]
          rfl
      | some x =>
          obtain ⟨m, hm⟩ := h.exists_of_walk hw
          have hx : x ≠ nodes.brk := (Heap.lt_brk_of_eq_some hm).ne
          rw [Option.bind_some]
          by_cases heq : q ++ [d] = p ++ [c]
          · obtain ⟨rfl, hdc⟩ := List.append_inj' heq rfl
            cases hdc
            rw [if_pos rfl]
            rw [hp] at hw
            cases hw
            exact (childOf_addChild_self hn).symm
          · rw [if_neg heq, walk_snoc_of_walk hw]
            refine (childOf_addChild_of_ne hn hx ?_).symm
            by_contra hcon
            obtain ⟨rfl, rfl⟩ := not_or.mp hcon |>.imp not_not.mp not_not.mp
            exact heq (by rw [h.walk_inj hw hp])

theorem Shape.addChild (h : Shape nodes root) (hn : nodes a = some n) (hc : n.child c = none)
    (hlow : c < 128) : Shape (addChild nodes a n c) root := by
  have hbrk : ∀ x m, nodes x = some m → x ≠ nodes.brk :=
    fun x m hm => (Heap.lt_brk_of_eq_some hm).ne
  have halt : a < nodes.brk := Heap.lt_brk_of_eq_some hn
  -- Every cell that was live has a cell with the same parent and index.
  have hkept : ∀ x m, nodes x = some m → ∃ m', Trie.addChild nodes a n c x = some m' ∧
      m'.parent = m.parent ∧ m'.pidx = m.pidx := by
    intro x m hm
    by_cases hxa : x = a
    · subst hxa
      rw [hn] at hm
      cases hm
      exact ⟨_, addChild_self hn, rfl, rfl⟩
    · exact ⟨m, by rw [addChild_of_ne hxa (hbrk x m hm), hm], rfl, rfl⟩
  constructor
  · obtain ⟨r, hr, hrpar⟩ := h.root
    obtain ⟨r', hr', hpar, -⟩ := hkept root r hr
    exact ⟨r', hr', hpar.trans hrpar⟩
  · intro x m d b hm hd
    rcases addChild_cases hn hm with ⟨rfl, rfl⟩ | ⟨rfl, rfl⟩ | ⟨hxa, hx, hm⟩
    · by_cases hdc : d = c
      · subst hdc
        change (n.setChild d (some nodes.brk)).child d = some b at hd
        rw [setChild_child_self] at hd
        cases hd
        exact ⟨_, addChild_new hn, rfl, rfl⟩
      · change (n.setChild c (some nodes.brk)).child d = some b at hd
        rw [setChild_child_of_ne _ hdc] at hd
        obtain ⟨m, hm, hpar, hidx⟩ := h.child x n d b hn hd
        obtain ⟨m', hm', hpar', hidx'⟩ := hkept b m hm
        exact ⟨m', hm', hpar'.trans hpar, hidx'.trans hidx⟩
    · cases hd
    · obtain ⟨k, hk, hpar, hidx⟩ := h.child x m d b hm hd
      obtain ⟨k', hk', hpar', hidx'⟩ := hkept b k hk
      exact ⟨k', hk', hpar'.trans hpar, hidx'.trans hidx⟩
  · intro x m d b hm hd
    rcases addChild_cases hn hm with ⟨rfl, rfl⟩ | ⟨rfl, rfl⟩ | ⟨hxa, hx, hm⟩
    · by_cases hdc : d = c
      · subst hdc
        change (n.setChild d (some nodes.brk)).child d = some b at hd
        rw [setChild_child_self] at hd
        cases hd
        exact ⟨hlow, halt⟩
      · change (n.setChild c (some nodes.brk)).child d = some b at hd
        rw [setChild_child_of_ne _ hdc] at hd
        exact h.lower x n d b hn hd
    · cases hd
    · exact h.lower x m d b hm hd
  · intro b m x hm hpar
    -- What was a child of a live cell still is.
    have hold : ∀ k d, nodes x = some k → k.child d = some b →
        ∃ k', Trie.addChild nodes a n c x = some k' ∧ k'.child d = some b := by
      intro k d hk hkd
      by_cases hxa : x = a
      · subst hxa
        rw [hn] at hk
        cases hk
        refine ⟨_, addChild_self hn, ?_⟩
        have hdc : d ≠ c := by
          rintro rfl
          rw [hc] at hkd
          cases hkd
        exact (setChild_child_of_ne _ hdc).trans hkd
      · exact ⟨k, by rw [addChild_of_ne hxa (hbrk x k hk), hk], hkd⟩
    rcases addChild_cases hn hm with ⟨rfl, rfl⟩ | ⟨rfl, rfl⟩ | ⟨hba, hb, hm⟩
    · obtain ⟨k, hk, hkd⟩ := h.parent b n x hn hpar
      exact hold k _ hk hkd
    · cases hpar
      exact ⟨_, addChild_self hn, setChild_child_self n c _⟩
    · obtain ⟨k, hk, hkd⟩ := h.parent b m x hm hpar
      exact hold k _ hk hkd
  · intro x m hm
    rcases addChild_cases hn hm with ⟨rfl, rfl⟩ | ⟨rfl, rfl⟩ | ⟨hxa, hx, hm⟩
    · have hnot : c ∉ childSet n := by
        rw [mem_childSet, hc]
        simp
      have hset : childSet { n.setChild c (some nodes.brk) with
          numChildren := n.numChildren + 1 } = insert c (childSet n) :=
        (childSet_congr rfl).trans (childSet_setChild_some n c nodes.brk)
      have hcard := h.numChildren x n hn
      rw [hset, Finset.card_insert_of_notMem hnot]
      change n.numChildren + 1 = _
      omega
    · simp [childSet, newNode]
    · exact h.numChildren x m hm

theorem Shape.valueAt_addChild (h : Shape nodes root) (hp : walk nodes root p = some a)
    (hn : nodes a = some n) (hc : n.child c = none) (key : List UInt8) :
    valueAt (Trie.addChild nodes a n c) root key = valueAt nodes root key := by
  have hwalk := h.walk_addChild hp hn hc key
  by_cases hkey : key = p ++ [c]
  · rw [if_pos hkey] at hwalk
    rw [valueAt_of_walk hwalk (addChild_new hn), hkey, valueAt_of_walk_none]
    · rfl
    · rw [walk_snoc_of_walk hp, childOf_of_eq_some hn, hc]
  · rw [if_neg hkey] at hwalk
    cases hw : walk nodes root key with
    | none => rw [valueAt_of_walk_none (hwalk.trans hw), valueAt_of_walk_none hw]
    | some x =>
        obtain ⟨m, hm⟩ := h.exists_of_walk hw
        rw [valueAt_of_walk hw hm]
        by_cases hxa : x = a
        · subst hxa
          rw [hn] at hm
          cases hm
          rw [valueAt_of_walk (hwalk.trans hw) (addChild_self hn)]
          rfl
        · refine valueAt_of_walk (hwalk.trans hw) ?_
          rw [addChild_of_ne hxa (Heap.lt_brk_of_eq_some hm).ne, hm]

end AddChild

/-! ## A new value -/

/-- Two heaps agree up to the values of the nodes. -/
theorem Shape.of_value_change {nodes nodes' : Heap (TrieNode V)} {root : Addr}
    (h : Shape nodes root)
    (hsame : ∀ a, (nodes' a).map (fun n => (n.child, n.parent, n.pidx, n.numChildren)) =
      (nodes a).map fun n => (n.child, n.parent, n.pidx, n.numChildren)) :
    Shape nodes' root := by
  have hback : ∀ a n', nodes' a = some n' → ∃ n, nodes a = some n ∧ n.child = n'.child ∧
      n.parent = n'.parent ∧ n.pidx = n'.pidx ∧ n.numChildren = n'.numChildren := by
    intro a n' hn'
    have hmap := hsame a
    rw [hn', Option.map_some] at hmap
    obtain ⟨n, hn, heq⟩ := Option.map_eq_some_iff.mp hmap.symm
    simp only [Prod.mk.injEq] at heq
    exact ⟨n, hn, heq⟩
  have hforth : ∀ a n, nodes a = some n → ∃ n', nodes' a = some n' ∧ n'.child = n.child ∧
      n'.parent = n.parent ∧ n'.pidx = n.pidx := by
    intro a n hn
    have hmap := hsame a
    rw [hn, Option.map_some] at hmap
    obtain ⟨n', hn', heq⟩ := Option.map_eq_some_iff.mp hmap
    simp only [Prod.mk.injEq] at heq
    exact ⟨n', hn', heq.1, heq.2.1, heq.2.2.1⟩
  constructor
  · obtain ⟨r, hr, hrpar⟩ := h.root
    obtain ⟨r', hr', -, hpar, -⟩ := hforth root r hr
    exact ⟨r', hr', hpar.trans hrpar⟩
  · intro a n' c b hn' hc
    obtain ⟨n, hn, hchild, -⟩ := hback a n' hn'
    obtain ⟨m, hm, hpar, hidx⟩ := h.child a n c b hn (by rw [hchild, hc])
    obtain ⟨m', hm', -, hpar', hidx'⟩ := hforth b m hm
    exact ⟨m', hm', hpar'.trans hpar, hidx'.trans hidx⟩
  · intro a n' c b hn' hc
    obtain ⟨n, hn, hchild, -⟩ := hback a n' hn'
    exact h.lower a n c b hn (by rw [hchild, hc])
  · intro b m' a hm' hpar'
    obtain ⟨m, hm, -, hpar, hidx, -⟩ := hback b m' hm'
    obtain ⟨n, hn, hc⟩ := h.parent b m a hm (hpar.trans hpar')
    obtain ⟨n', hn', hchild, -⟩ := hforth a n hn
    exact ⟨n', hn', by rw [hchild, ← hidx, hc]⟩
  · intro a n' hn'
    obtain ⟨n, hn, hchild, -, -, hnum⟩ := hback a n' hn'
    rw [← hnum, h.numChildren a n hn, childSet_congr hchild]

@[simp] theorem releaseValue_nodes (trie : Trie V) (n : TrieNode V) (cb : Bool) :
    (releaseValue trie n cb).nodes = trie.nodes := by
  unfold releaseValue
  split
  · rfl
  · split
    · rfl
    · split <;> rfl

@[simp] theorem releaseValue_root (trie : Trie V) (n : TrieNode V) (cb : Bool) :
    (releaseValue trie n cb).root = trie.root := by
  unfold releaseValue
  split
  · rfl
  · split
    · rfl
    · split <;> rfl

@[simp] theorem releaseValue_nodeCount (trie : Trie V) (n : TrieNode V) (cb : Bool) :
    (releaseValue trie n cb).nodeCount = trie.nodeCount := by
  unfold releaseValue
  split
  · rfl
  · split
    · rfl
    · split <;> rfl

theorem trieNodeSetValue_eq {trie : Trie V} {node : Addr} {n : TrieNode V}
    (hn : trie.nodes node = some n) {value : Option V} {copy : Bool}
    (hcopy : copy = true → value.isSome) (vsize : ℕ) :
    ∃ (trie' : Trie V) (ptr : Option (ValuePtr V)),
      trieNodeSetValue trie node value vsize copy = some trie' ∧
      ptr.map ValuePtr.contents = value ∧ trie'.root = trie.root ∧
      trie'.nodes = trie.nodes.put node
        { n with value := ptr, vsize := vsize, isCopy := copy } := by
  have hrel : (releaseValue trie n trie.freeValueCb).nodes = trie.nodes :=
    releaseValue_nodes trie n trie.freeValueCb
  cases copy with
  | false =>
      have heq : trieNodeSetValue trie node value vsize false =
          some { releaseValue trie n trie.freeValueCb with
            nodes := (releaseValue trie n trie.freeValueCb).nodes.put node
              { n with value := value.map .given, vsize := vsize, isCopy := false } } := by
        simp [trieNodeSetValue, hn, Heap.modify_eq_some _ hn]
      refine ⟨_, value.map .given, heq, ?_, releaseValue_root trie n _, ?_⟩
      · cases value <;> rfl
      · rw [hrel]
  | true =>
      obtain ⟨v, rfl⟩ := Option.isSome_iff_exists.mp (hcopy rfl)
      have heq : trieNodeSetValue trie node (some v) vsize true =
          some { releaseValue trie n trie.freeValueCb with
            nodes := (releaseValue trie n trie.freeValueCb).nodes.put node
              { n with
                value := some (.copied (releaseValue trie n trie.freeValueCb).blocks v)
                vsize := vsize
                isCopy := true }
            blocks := (releaseValue trie n trie.freeValueCb).blocks + 1 } := by
        simp [trieNodeSetValue, hn, Heap.modify_eq_some _ hn]
      refine ⟨_, some (.copied (releaseValue trie n trie.freeValueCb).blocks v), heq, rfl,
        releaseValue_root trie n _, ?_⟩
      rw [hrel]

/-- A node with other value fields. -/
theorem childOf_put_value {nodes : Heap (TrieNode V)} {a : Addr} {n : TrieNode V}
    (hn : nodes a = some n) (ptr : Option (ValuePtr V)) (vsize : ℕ) (copy : Bool)
    (x : Addr) (c : UInt8) :
    childOf (nodes.put a { n with value := ptr, vsize := vsize, isCopy := copy }) x c =
      childOf nodes x c := by
  by_cases hx : x = a
  · subst hx
    rw [childOf_of_eq_some (Heap.put_self hn), childOf_of_eq_some hn]
  · rw [childOf, childOf, Heap.put_of_ne hx]

theorem Shape.put_value {nodes : Heap (TrieNode V)} {root a : Addr} {n : TrieNode V}
    (h : Shape nodes root) (hn : nodes a = some n) (ptr : Option (ValuePtr V)) (vsize : ℕ)
    (copy : Bool) :
    Shape (nodes.put a { n with value := ptr, vsize := vsize, isCopy := copy }) root := by
  refine h.of_value_change ?_
  intro x
  by_cases hx : x = a
  · subst hx
    rw [Heap.put_self hn, hn, Option.map_some, Option.map_some]
  · rw [Heap.put_of_ne hx]

/-- A value is set at the one key that leads to the node. -/
theorem Shape.valueAt_put_value {nodes : Heap (TrieNode V)} {root a : Addr} {n : TrieNode V}
    {key : List UInt8} (h : Shape nodes root) (hkey : walk nodes root key = some a)
    (hn : nodes a = some n) (ptr : Option (ValuePtr V)) (vsize : ℕ) (copy : Bool)
    (q : List UInt8) :
    valueAt (nodes.put a { n with value := ptr, vsize := vsize, isCopy := copy }) root q =
      if q = key then ptr.map fun p => (p, vsize) else valueAt nodes root q := by
  have hwalk := walk_congr (childOf_put_value hn ptr vsize copy) root q
  by_cases hq : q = key
  · subst hq
    rw [if_pos rfl, valueAt_of_walk (hwalk.trans hkey) (Heap.put_self hn)]
  · rw [if_neg hq]
    cases hw : walk nodes root q with
    | none => rw [valueAt_of_walk_none (hwalk.trans hw), valueAt_of_walk_none hw]
    | some x =>
        obtain ⟨m, hm⟩ := h.exists_of_walk hw
        have hxa : x ≠ a := by
          rintro rfl
          exact hq (h.walk_inj hw hkey)
        rw [valueAt_of_walk hw hm]
        exact valueAt_of_walk (hwalk.trans hw) (by rw [Heap.put_of_ne hxa, hm])

theorem Shape.trieNodeSetValue_spec {trie : Trie V} {key : List UInt8} {node : Addr}
    (h : Shape trie.nodes trie.root) (hkey : walk trie.nodes trie.root key = some node)
    (value : Option V) (copy : Bool) (hcopy : copy = true → value.isSome) (vsize : ℕ) :
    ∃ (trie' : Trie V) (ptr : Option (ValuePtr V)),
      trieNodeSetValue trie node value vsize copy = some trie' ∧
      ptr.map ValuePtr.contents = value ∧ Shape trie'.nodes trie'.root ∧
      (∀ q, walk trie'.nodes trie'.root q = walk trie.nodes trie.root q) ∧
      ∀ q, valueAt trie'.nodes trie'.root q =
        if q = key then ptr.map fun p => (p, vsize) else valueAt trie.nodes trie.root q := by
  obtain ⟨n, hn⟩ := h.exists_of_walk hkey
  obtain ⟨trie', ptr, hset, hptr, hroot, hnodes⟩ := trieNodeSetValue_eq hn hcopy vsize
  refine ⟨trie', ptr, hset, hptr, ?_, ?_, ?_⟩
  · rw [hroot, hnodes]
    exact h.put_value hn ptr vsize copy
  · intro q
    rw [hroot, hnodes]
    exact walk_congr (childOf_put_value hn ptr vsize copy) trie.root q
  · intro q
    rw [hroot, hnodes]
    exact h.valueAt_put_value hkey hn ptr vsize copy q

/-! ## Inserts -/

/-- The second loop of `trie_insert` adds the keys between the node it starts at
and the key, without values. -/
theorem Shape.extendKey_spec :
    ∀ (rest : List UInt8) {nodes : Heap (TrieNode V)} {root a : Addr} {p : List UInt8} (k : ℕ),
    Shape nodes root → walk nodes root p = some a → Plain rest →
    (∀ c rest', rest = c :: rest' → childOf nodes a c = none) →
    ∃ nodes' b, extendKey nodes a rest k = some (nodes', b, k + rest.length) ∧
      Shape nodes' root ∧ walk nodes' root (p ++ rest) = some b ∧
      (∀ q, (walk nodes' root q).isSome ↔ (walk nodes root q).isSome ∨ q <+: p ++ rest) ∧
      ∀ q, valueAt nodes' root q = valueAt nodes root q := by
  intro rest
  induction rest with
  | nil =>
      intro nodes root a p k h hp _ _
      refine ⟨nodes, a, rfl, h, by rwa [List.append_nil], ?_, fun q => rfl⟩
      intro q
      rw [List.append_nil]
      constructor
      · exact Or.inl
      · rintro (hq | hq)
        · exact hq
        · obtain ⟨x, hx⟩ := walk_initial hq hp
          rw [hx]
          rfl
  | cons c rest ih =>
      intro nodes root a p k h hp hplain hstop
      obtain ⟨n, hn⟩ := h.exists_of_walk hp
      have hc : n.child c = none := by
        rw [← childOf_of_eq_some hn]
        exact hstop c rest rfl
      have hlow : c < 128 := (hplain c List.mem_cons_self).2
      have hwalk := h.walk_addChild hp hn hc
      obtain ⟨nodes', b, hext, hshape, hb, hsome, hval⟩ :=
        ih (p := p ++ [c]) (k + 1) (h.addChild hn hc hlow) (by rw [hwalk, if_pos rfl])
          hplain.tail fun d rest' _ => childOf_addChild_new hn d
      refine ⟨nodes', b, ?_, hshape, ?_, ?_, ?_⟩
      · have halloc : (nodes.alloc { newNode with parent := some a, pidx := c }).1 a = some n := by
          rw [Heap.alloc_apply, if_neg (Heap.lt_brk_of_eq_some hn).ne, hn]
        rw [List.length_cons, ← Nat.add_assoc, Nat.add_right_comm, ← hext]
        simp only [extendKey, hplain.childIndex, Option.bind_eq_bind, Option.bind_some,
          Heap.modify_eq_some _ halloc]
        rfl
      · rw [← hb, List.append_assoc, List.singleton_append]
      · intro q
        rw [hsome q, hwalk q, List.append_assoc, List.singleton_append]
        by_cases hq : q = p ++ [c]
        · rw [if_pos hq]
          subst hq
          simp
        · rw [if_neg hq]
      · intro q
        rw [hval q, h.valueAt_addChild hp hn hc q]

/-- `trie_insert` sets the value at the key and at no other.  The new nodes are as
many as there are bytes behind the longest way of the key. -/
theorem Shape.trieInsert_spec {trie : Trie V} {key : List UInt8}
    (h : Shape trie.nodes trie.root) (hkey : Plain key) (value : Option V) (copy : Bool)
    (hcopy : copy = true → value.isSome) (vsize : ℕ) :
    ∃ (trie' : Trie V) (q rest : List UInt8) (ptr : Option (ValuePtr V)),
      trieInsert trie key value vsize copy = some (trie', rest.length) ∧
      key = q ++ rest ∧ (walk trie.nodes trie.root q).isSome ∧
      (∀ c rest', rest = c :: rest' → walk trie.nodes trie.root (q ++ [c]) = none) ∧
      ptr.map ValuePtr.contents = value ∧ Shape trie'.nodes trie'.root ∧
      (∀ q, (walk trie'.nodes trie'.root q).isSome ↔
        (walk trie.nodes trie.root q).isSome ∨ q <+: key) ∧
      ∀ q, valueAt trie'.nodes trie'.root q =
        if q = key then ptr.map fun p => (p, vsize) else valueAt trie.nodes trie.root q := by
  obtain ⟨q, rest, a, hfollow, hsplit, ha, hrest, hstop⟩ :=
    h.followKey_eq hkey (p := []) (walk_nil _ _)
  rw [List.nil_append] at ha
  obtain ⟨nodes', b, hext, hshape, hb, hsome, hval⟩ := h.extendKey_spec rest 0 ha hrest hstop
  rw [← hsplit] at hb hsome
  let trie₁ : Trie V := { trie with
    nodes := nodes'
    count := if 0 + rest.length ≠ 0 then trie.count + 1 else trie.count
    nodeCount := trie.nodeCount + (0 + rest.length : ℕ) }
  obtain ⟨trie', ptr, hset, hptr, hshape', hwalk', hval'⟩ :=
    @Shape.trieNodeSetValue_spec _ trie₁ _ _ hshape hb value copy hcopy vsize
  refine ⟨trie', q, rest, ptr, ?_, hsplit, ?_, ?_, hptr, hshape', ?_, ?_⟩
  · rw [trieInsert, hfollow]
    simp only [Option.bind_eq_bind, Option.bind_some]
    rw [hext]
    simp only [Option.bind_some]
    rw [hset, Nat.zero_add]
    rfl
  · rw [ha]
    rfl
  · intro c rest' hc
    rw [walk_snoc_of_walk ha, hstop c rest' hc]
  · intro q
    rw [hwalk' q]
    exact hsome q
  · intro q
    rw [hval' q]
    by_cases hq : q = key
    · rw [if_pos hq, if_pos hq]
    · rw [if_neg hq, if_neg hq]
      exact hval q

end Trie
end LibHL
