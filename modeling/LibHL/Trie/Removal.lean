import LibHL.Support.Run
import LibHL.Trie.Destroy
import LibHL.Trie.MapRefinement

/-!
# Removing a key from a trie

`trie_remove` destroys the node of the key with everything below it, so the keys
that extend the removed one go with it.  It removes no other key than the given
one exactly if none of these holds a value.
-/

namespace LibHL
namespace Trie

variable {V : Type}

/-! ## What a removal does -/

/-- `trie_node_destroy` on a node other than the root cuts off a branch below a node that
stays; the nodes between the two only lead to the node that is destroyed. -/
theorem Shape.trieNodeDestroy_cuts {trie : Trie V} {p : List UInt8} {c : UInt8} {a : Addr}
    (h : Shape trie.nodes trie.root) (hp : walk trie.nodes trie.root (p ++ [c]) = some a)
    (cb : Bool) :
    ∃ trie' top t y, trieNodeDestroy cb trie.nodes.brk trie a = some trie' ∧
      trie'.root = trie.root ∧ CutAt trie.nodes trie'.nodes trie.root y top t ∧
      walk trie.nodes trie.root top = some y ∧ Stays trie.nodes trie.root y ∧
      (childOf trie.nodes y t).isSome ∧ top ++ [t] <+: p ++ [c] ∧
      ∀ q, top ++ [t] <+: q → q <+: p → OnlyLeadsTo trie.nodes trie.root q (p ++ [c]) := by
  obtain ⟨n, hn⟩ := h.exists_of_walk hp
  obtain ⟨x, hx, hxa, hpar, hidx⟩ := h.parent_of_walk hp hn
  have hxlt : x < trie.nodes.brk :=
    (h.lt_of_childOf hxa).2.trans (Heap.lt_brk_of_eq_some hn)
  obtain ⟨trie₁, top, t, y, heq₁, hroot₁, hy, hstays, htop, honly, hdead₁, hkept₁⟩ :=
    h.freeEmptyParents_spec trie.nodes.brk (c := c) hx (by rw [hxa]; rfl) hxlt rfl
      fun _ _ _ _ => rfl
  -- The ancestor that stays, and the nodes below the destroyed one, are untouched.
  have huntouched : ∀ q z, walk trie.nodes trie.root q = some z → (q <+: p → q <+: top) →
      trie₁.nodes z = trie.nodes z := by
    intro q z hz hup
    refine hkept₁ z ?_
    intro r hr hrp hrz
    rw [h.walk_inj hrz hz] at hr hrp
    exact not_prefix_of_snoc top t (hr.trans (hup hrp))
  obtain ⟨m, hm⟩ := h.exists_of_walk hy
  have hym : trie₁.nodes y = some m := by rw [huntouched top y hy fun _ => List.prefix_refl _, hm]
  have hyt : (childOf trie.nodes y t).isSome := by
    obtain ⟨z, hz⟩ := walk_initial htop hp
    rw [← walk_snoc_of_walk hy, hz]
    rfl
  have htlt : t < 128 := by
    obtain ⟨z, hz⟩ := Option.isSome_iff_exists.mp hyt
    exact (h.lt_of_childOf hz).1
  have hclear := clearChild_eq hym htlt
  have hbelow : ∀ z, Below trie.nodes trie.root (p ++ [c]) z → z ≠ y ∧
      trie₁.nodes z = trie.nodes z := by
    rintro z ⟨q, hq, hz⟩
    constructor
    · rintro rfl
      rw [h.walk_inj hz hy] at hq
      exact not_prefix_of_snoc top t (htop.trans hq)
    · refine huntouched q z hz fun hqp => ?_
      exact absurd (hq.trans hqp) (not_prefix_of_snoc p c)
  have ha : Below trie.nodes trie.root (p ++ [c]) a := below_of_walk hp
  let trie₂ : Trie V := { trie₁ with
    nodes := trie₁.nodes.put y { m.setChild t none with numChildren := m.numChildren - 1 } }
  have hcell₂ : ∀ z, z ≠ y → trie₂.nodes z = trie₁.nodes z := fun z hz => Heap.put_of_ne hz
  have hna : trie₂.nodes a = some n := by
    rw [hcell₂ a (hbelow a ha).1, (hbelow a ha).2, hn]
  obtain ⟨fuel, hfuel⟩ : ∃ fuel, trie.nodes.brk = fuel + 1 :=
    Nat.exists_eq_succ_of_ne_zero (Nat.ne_zero_of_lt (Heap.lt_brk_of_eq_some hn))
  obtain ⟨trie', heq', hroot', hdead', hkept'⟩ := h.destroyNode_spec hp
    (trieNodeDestroy cb fuel) (by
      intro trie₃ i b k hb hk hbk hsame
      have hab : fuel + 1 ≤ fuel + b := by
        refine Nat.add_le_add_left ?_ fuel
        exact Nat.lt_of_le_of_lt (Nat.zero_le a) (h.lt_of_childOf hb).2
      refine h.trieNodeDestroy_orphan cb fuel ?_ (hfuel.trans_le hab) hk hbk hsame
      rw [walk_snoc_of_walk hp, hb])
    trie₂ hna (fun i => (childOf_of_eq_some hn i).symm)
    (fun z hz _ => (hcell₂ z (hbelow z hz).1).trans (hbelow z hz).2) cb
  have hroot : trie'.root = trie.root := hroot'.trans hroot₁
  have hcut : CutAt trie.nodes trie'.nodes trie.root y top t := by
    constructor
    · rintro z ⟨q, hq, hz⟩
      rcases below_top htop honly q z hq hz with hqp | hpq
      · have hzy : z ≠ y := by
          rintro rfl
          rw [h.walk_inj hz hy] at hq
          exact not_prefix_of_snoc top t hq
        by_cases hzb : Below trie.nodes trie.root (p ++ [c]) z
        · exact hdead' z hzb
        · rw [hkept' z hzb, hcell₂ z hzy]
          exact hdead₁ q z hq hqp hz
      · exact hdead' z ⟨q, hpq, hz⟩
    · refine ⟨m, hm, ?_⟩
      rw [hkept' y fun hyb => (hbelow y hyb).1 rfl]
      exact Heap.put_self hym
    · intro z hzy hzb
      rw [hkept' z fun hz => hzb (hz.of_initial htop), hcell₂ z hzy]
      refine hkept₁ z ?_
      intro q hq _ hqz
      exact hzb ⟨q, hq, hqz⟩
  refine ⟨trie', top, t, y, ?_, hroot, hcut, hy, hstays, hyt, htop, honly⟩
  rw [hfuel, trieNodeDestroy]
  simp only [hn, Option.bind_eq_bind, Option.bind_some, hpar, hidx, heq₁, hclear]
  exact heq'

/-- What was stored in the branch that is cut off was stored at the key of the destroyed
node or at an extension. -/
theorem Shape.trieNodeDestroy_spec {trie : Trie V} {p : List UInt8} {c : UInt8} {a : Addr}
    (h : Shape trie.nodes trie.root) (hp : walk trie.nodes trie.root (p ++ [c]) = some a)
    (cb : Bool) :
    ∃ trie', trieNodeDestroy cb trie.nodes.brk trie a = some trie' ∧
      Shape trie'.nodes trie'.root ∧
      ∀ q, valueAt trie'.nodes trie'.root q =
        if p ++ [c] <+: q then none else valueAt trie.nodes trie.root q := by
  obtain ⟨trie', top, t, y, heq, hroot, hcut, hy, -, hyt, htop, honly⟩ :=
    h.trieNodeDestroy_cuts hp cb
  refine ⟨trie', heq, ?_, ?_⟩
  · rw [hroot]
    exact hcut.shape h hy hyt
  · intro q
    rw [hroot, hcut.valueAt_eq h hy q]
    by_cases hpq : p ++ [c] <+: q
    · rw [if_pos hpq, if_pos (htop.trans hpq)]
    · rw [if_neg hpq]
      by_cases htq : top ++ [t] <+: q
      · -- On the way from the cut to the node no value was stored.
        rw [if_pos htq]
        cases hw : walk trie.nodes trie.root q with
        | none => rw [valueAt_of_walk_none hw]
        | some z =>
            have hqp := (below_top htop honly q z htq hw).resolve_right hpq
            obtain ⟨z', k, hz', hk, hval, -⟩ := honly q htq hqp
            rw [valueAt_of_walk hz' hk, hval, Option.map_none]
      · rw [if_neg htq]

/-- `trie_remove` with a key that has a node destroys the node. -/
theorem trieRemove_of_found {trie trie' : Trie V} {key : List UInt8} {node : Addr}
    {n : TrieNode V} {wantsValue : Bool} (hfind : trieFindInternal trie key = some (some node))
    (hn : trie.nodes node = some n)
    (heq : trieNodeDestroy (if wantsValue then false else trie.freeValueCb) trie.nodes.brk trie
      node = some trie') :
    trieRemove trie key wantsValue = some (trie', ⟨trie.nodeCount - trie'.nodeCount,
      if wantsValue then n.value else none, some n.vsize⟩) := by
  rw [trieRemove, hfind]
  simp only [Option.bind_eq_bind, Option.bind_some, hn, heq]

/-- `trie_remove` with a key that is not empty removes the key and all its
extensions. -/
theorem Shape.trieRemove_spec {trie : Trie V} {key : List UInt8}
    (h : Shape trie.nodes trie.root) (hkey : Plain key) (hne : key ≠ []) (wantsValue : Bool) :
    ∃ trie' r, trieRemove trie key wantsValue = some (trie', r) ∧
      Shape trie'.nodes trie'.root ∧
      ∀ q, valueAt trie'.nodes trie'.root q =
        if key <+: q then none else valueAt trie.nodes trie.root q := by
  have hfind := h.trieFindInternal_eq hkey
  cases hw : walk trie.nodes trie.root key with
  | none =>
      refine ⟨trie, ⟨0, none, none⟩, ?_, h, ?_⟩
      · simp [trieRemove, hfind, hw]
      · intro q
        by_cases hq : key <+: q
        · rw [if_pos hq, valueAt_of_walk_none (walk_none_of_initial hq hw)]
        · rw [if_neg hq]
  | some node =>
      obtain ⟨n, hn⟩ := h.exists_of_walk hw
      obtain ⟨p, c, rfl⟩ := (List.eq_nil_or_concat' key).resolve_left hne
      obtain ⟨trie', heq, hshape, hval⟩ :=
        h.trieNodeDestroy_spec hw (if wantsValue then false else trie.freeValueCb)
      rw [hw] at hfind
      exact ⟨trie', _, trieRemove_of_found hfind hn heq, hshape, hval⟩

/-- Removing the empty key destroys the root, and the trie keeps the pointer. -/
theorem Shape.trieRemove_nil {trie : Trie V} (h : Shape trie.nodes trie.root)
    (wantsValue : Bool) :
    ∃ trie' r, trieRemove trie [] wantsValue = some (trie', r) ∧
      trie'.nodes trie'.root = none := by
  obtain ⟨n, hn, hpar⟩ := h.root
  obtain ⟨trie', heq, hroot, hdead, -⟩ := h.trieNodeDestroy_orphan
    (if wantsValue then false else trie.freeValueCb) trie.nodes.brk (p := []) (walk_nil _ _)
    (Nat.le_add_right _ _) hn (by rw [hn, ← hpar]) fun _ _ _ => rfl
  have hplain : Plain [] := nofun
  have hfind := h.trieFindInternal_eq hplain
  rw [walk_nil] at hfind
  refine ⟨trie', _, trieRemove_of_found hfind hn heq, ?_⟩
  rw [hroot]
  exact hdead trie.root (below_of_walk (walk_nil _ _))

/-! ## Reachable tries -/

/-- The calls on a trie; values may be null. -/
inductive TrieOp (V : Type) where
  | insert (key : Key) (value : Option V) (vsize : ℕ) (copy : Bool)
  | findAndInsert (key : Key) (value : Option V) (vsize : ℕ) (copy : Bool)
  | findOrInsert (key : Key) (value : Option V) (vsize : ℕ) (copy : Bool)
  | find (key : Key)
  | remove (key : Key) (wantsValue : Bool)

/-- One call; the answers do not matter here. -/
def trieStep (trie : Trie V) : TrieOp V → Option (Trie V × Unit)
  | .insert key value vsize copy =>
      (trieInsert trie key.val value vsize copy).map fun r => (r.1, ())
  | .findAndInsert key value vsize copy =>
      (trieFindAndInsert trie key.val value vsize copy).map fun r => (r.1, ())
  | .findOrInsert key value vsize copy =>
      (trieFindOrInsert trie key.val value vsize copy).map fun r => (r.1, ())
  | .find key => (trieFind trie key.val).map fun _ => (trie, ())
  | .remove key wantsValue => (trieRemove trie key.val wantsValue).map fun r => (r.1, ())

/-- A trie has its shape until the root is destroyed. -/
def ShapeOrDestroyed (trie : Trie V) : Prop :=
  Shape trie.nodes trie.root ∨ trie.nodes trie.root = none

theorem copy_of_trieNodeSetValue {trie trie' : Trie V} {node : Addr} {value : Option V}
    {vsize : ℕ} {copy : Bool} (h : trieNodeSetValue trie node value vsize copy = some trie') :
    copy = true → value.isSome := by
  rintro rfl
  cases value with
  | none =>
      obtain ⟨n, -, hn⟩ := Option.bind_eq_some_iff.mp h
      cases hn
  | some v => rfl

theorem copy_of_trieInsert {trie trie' : Trie V} {key : List UInt8} {value : Option V}
    {vsize k : ℕ} {copy : Bool} (h : trieInsert trie key value vsize copy = some (trie', k)) :
    copy = true → value.isSome := by
  obtain ⟨⟨a, rest⟩, -, h⟩ := Option.bind_eq_some_iff.mp h
  obtain ⟨⟨nodes, b, newNodes⟩, -, h⟩ := Option.bind_eq_some_iff.mp h
  obtain ⟨trie₁, hset, -⟩ := Option.bind_eq_some_iff.mp h
  exact copy_of_trieNodeSetValue hset

theorem Shape.of_trieInsert {trie trie' : Trie V} {key : Key} {value : Option V}
    {vsize k : ℕ} {copy : Bool} (h : Shape trie.nodes trie.root)
    (hins : trieInsert trie key.val value vsize copy = some (trie', k)) :
    Shape trie'.nodes trie'.root := by
  obtain ⟨trie₁, q, rest, ptr, hins₁, -, -, -, -, hshape, -⟩ :=
    h.trieInsert_spec key.property value copy (copy_of_trieInsert hins) vsize
  rw [hins] at hins₁
  cases hins₁
  exact hshape

theorem findFrom_of_root_none {trie : Trie V} (h : trie.nodes trie.root = none)
    (key : List UInt8) : trieFindInternal trie key = none ∨
      trieFindInternal trie key = some (some trie.root) := by
  cases key with
  | nil => exact Or.inr rfl
  | cons c key =>
      left
      simp [trieFindInternal, findFrom, h]

theorem trieStep_of_root_none {trie : Trie V} (h : trie.nodes trie.root = none)
    (op : TrieOp V) : trieStep trie op = none := by
  cases op with
  | insert key value vsize copy =>
      cases hkey : key.val with
      | nil =>
          simp [trieStep, hkey, trieInsert, followKey, extendKey, trieNodeSetValue, h]
      | cons c q =>
          simp [trieStep, hkey, trieInsert, followKey, h]
  | findAndInsert key value vsize copy =>
      rcases findFrom_of_root_none h key.val with hfind | hfind
      · simp [trieStep, trieFindAndInsert, hfind]
      · simp [trieStep, trieFindAndInsert, hfind, h]
  | findOrInsert key value vsize copy =>
      rcases findFrom_of_root_none h key.val with hfind | hfind
      · simp [trieStep, trieFindOrInsert, hfind]
      · simp [trieStep, trieFindOrInsert, hfind, h]
  | find key =>
      rcases findFrom_of_root_none h key.val with hfind | hfind
      · simp [trieStep, trieFind, hfind]
      · simp [trieStep, trieFind, hfind, h]
  | remove key wantsValue =>
      rcases findFrom_of_root_none h key.val with hfind | hfind
      · simp [trieStep, trieRemove, hfind]
      · simp [trieStep, trieRemove, hfind, h]

theorem trieStep_keeps (trie : Trie V) (op : TrieOp V) (trie' : Trie V) (o : Unit)
    (h : ShapeOrDestroyed trie) (hstep : trieStep trie op = some (trie', o)) :
    ShapeOrDestroyed trie' := by
  rcases h with h | h
  · cases op with
    | insert key value vsize copy =>
        obtain ⟨r, hins, heq⟩ := Option.map_eq_some_iff.mp hstep
        cases heq
        exact Or.inl (h.of_trieInsert hins)
    | findAndInsert key value vsize copy =>
        obtain ⟨r, hins, heq⟩ := Option.map_eq_some_iff.mp hstep
        cases heq
        rw [trieFindAndInsert, h.trieFindInternal_eq key.property] at hins
        cases hw : walk trie.nodes trie.root key.val with
        | none =>
            simp only [hw, Option.bind_eq_bind, Option.bind_some] at hins
            obtain ⟨⟨trie₁, k⟩, hins₁, heq⟩ := Option.bind_eq_some_iff.mp hins
            cases heq
            exact Or.inl (h.of_trieInsert hins₁)
        | some node =>
            obtain ⟨n, hn⟩ := h.exists_of_walk hw
            simp only [hw, Option.bind_eq_bind, Option.bind_some, hn] at hins
            obtain ⟨trie₁, hset, heq⟩ := Option.bind_eq_some_iff.mp hins
            cases heq
            obtain ⟨trie₂, ptr, hset₂, -, hshape, -⟩ :=
              h.trieNodeSetValue_spec hw value copy (copy_of_trieNodeSetValue hset) vsize
            rw [hset] at hset₂
            cases hset₂
            exact Or.inl hshape
    | findOrInsert key value vsize copy =>
        obtain ⟨r, hins, heq⟩ := Option.map_eq_some_iff.mp hstep
        cases heq
        rw [trieFindOrInsert, h.trieFindInternal_eq key.property] at hins
        cases hw : walk trie.nodes trie.root key.val with
        | none =>
            simp only [hw, Option.bind_eq_bind, Option.bind_some] at hins
            obtain ⟨⟨trie₁, k⟩, hins₁, heq⟩ := Option.bind_eq_some_iff.mp hins
            cases heq
            exact Or.inl (h.of_trieInsert hins₁)
        | some node =>
            obtain ⟨n, hn⟩ := h.exists_of_walk hw
            simp only [hw, Option.bind_eq_bind, Option.bind_some, hn] at hins
            cases hins
            exact Or.inl h
    | find key =>
        obtain ⟨r, -, heq⟩ := Option.map_eq_some_iff.mp hstep
        cases heq
        exact Or.inl h
    | remove key wantsValue =>
        obtain ⟨r, hrem, heq⟩ := Option.map_eq_some_iff.mp hstep
        cases heq
        by_cases hne : key.val = []
        · obtain ⟨trie₁, r₁, hrem₁, hroot⟩ := h.trieRemove_nil wantsValue
          rw [← hne, hrem] at hrem₁
          cases hrem₁
          exact Or.inr hroot
        · obtain ⟨trie₁, r₁, hrem₁, hshape, -⟩ := h.trieRemove_spec key.property hne wantsValue
          rw [hrem] at hrem₁
          cases hrem₁
          exact Or.inl hshape
  · rw [trieStep_of_root_none h] at hstep
    cases hstep

theorem shapeOrDestroyed_of_run {freeValueCb : Bool} {ops : List (TrieOp V)} {trie : Trie V}
    {os : List Unit} (hrun : runSteps trieStep (trieCreate freeValueCb) ops = some (trie, os)) :
    ShapeOrDestroyed trie :=
  invariant_of_all_steps trieStep_keeps ops _ trie os (Or.inl (shape_trieCreate freeValueCb)) hrun

/-! ## Removing only the key -/

/-- What `trie_find` hands out for a key: the value, if it is not null, with its
size. -/
def findValue (trie : Trie V) (key : Key) : Option (Option (ValuePtr V × ℕ)) :=
  (trieFind trie key.val).map fun r => r.1.bind fun p => r.2.map fun n => (p, n)

/-- `trie_remove` returns, the key has no value afterwards, every other key has the
value it had, and with a key that has no value nothing changes. -/
def RemovesOnly (trie : Trie V) (key : Key) (wantsValue : Bool) : Prop :=
  ∃ trie' r, trieRemove trie key.val wantsValue = some (trie', r) ∧
    findValue trie' key = some none ∧
    (∀ key', key' ≠ key → findValue trie' key' = findValue trie key') ∧
    (findValue trie key = some none → ∀ key', findValue trie' key' = findValue trie key')

theorem Shape.findValue_eq {trie : Trie V} (h : Shape trie.nodes trie.root) (key : Key) :
    findValue trie key = some (valueAt trie.nodes trie.root key.val) := by
  have hfind := h.trieFindInternal_eq key.property
  cases hw : walk trie.nodes trie.root key.val with
  | none => simp [findValue, trieFind, hfind, hw, valueAt_of_walk_none hw]
  | some node =>
      obtain ⟨n, hn⟩ := h.exists_of_walk hw
      rw [valueAt_of_walk hw hn]
      cases hv : n.value <;> simp [findValue, trieFind, hfind, hw, hn, hv]

/-- In every reachable trie, a removal removes only its key exactly if no proper
extension of the key holds a value. -/
theorem removesOnly_iff_no_extension (freeValueCb : Bool) (ops : List (TrieOp V))
    (trie : Trie V) (os : List Unit)
    (hrun : runSteps trieStep (trieCreate freeValueCb) ops = some (trie, os)) (key : Key)
    (hne : key.val ≠ []) (wantsValue : Bool) :
    RemovesOnly trie key wantsValue ↔
      ∀ key', key' ≠ key → key.val <+: key'.val → findValue trie key' = some none := by
  rcases shapeOrDestroyed_of_run hrun with h | h
  · obtain ⟨trie', r, hrem, hshape, hval⟩ := h.trieRemove_spec key.property hne wantsValue
    constructor
    · rintro ⟨trie₁, r₁, hrem₁, -, hothers, -⟩ key' hkey' hpre
      rw [hrem] at hrem₁
      cases hrem₁
      rw [← hothers key' hkey', hshape.findValue_eq, hval, if_pos hpre]
    · intro hnone
      have hothers : ∀ key', key' ≠ key → findValue trie' key' = findValue trie key' := by
        intro key' hkey'
        rw [hshape.findValue_eq, hval]
        by_cases hpre : key.val <+: key'.val
        · rw [if_pos hpre, hnone key' hkey' hpre]
        · rw [if_neg hpre, h.findValue_eq]
      have hself : findValue trie' key = some none := by
        rw [hshape.findValue_eq, hval, if_pos (List.prefix_refl _)]
      refine ⟨trie', r, hrem, hself, hothers, ?_⟩
      intro hvalueless key'
      by_cases hkey' : key' = key
      · rw [hkey', hself, hvalueless]
      · exact hothers key' hkey'
  · have hdead : ∀ q : Key, findValue trie q = none := by
      intro q
      rcases findFrom_of_root_none h q.val with hfind | hfind
      · simp [findValue, trieFind, hfind]
      · simp [findValue, trieFind, hfind, h]
    constructor
    · rintro ⟨trie₁, r₁, hrem₁, -⟩
      rcases findFrom_of_root_none h key.val with hfind | hfind
      · simp [trieRemove, hfind] at hrem₁
      · simp [trieRemove, hfind, h] at hrem₁
    · intro hnone
      -- The key with one more byte is a proper extension, and looking it up fails.
      have hplain : Plain (key.val ++ [1]) := by
        intro c hc
        rcases List.mem_append.mp hc with hc | hc
        · exact key.property c hc
        · rw [List.mem_singleton.mp hc]
          decide
      have hext := hnone ⟨key.val ++ [1], hplain⟩ (by
        intro heq
        have hval := congrArg Subtype.val heq
        simp at hval) (List.prefix_append _ _)
      rw [hdead] at hext
      cases hext

/-- The key `TE`. -/
def keyTE : Key := ⟨[84, 69], by decide⟩

/-- The key `TEST`, an extension of `TE`. -/
def keyTEST : Key := ⟨[84, 69, 83, 84], by decide⟩

/-- A run that stores a value at each of the two keys. -/
def nestedKeys : List (TrieOp ℕ) :=
  [.insert keyTE (some 1) 4 false, .insert keyTEST (some 2) 4 false]

theorem nestedKeys_runs : (runSteps trieStep (trieCreate false) nestedKeys).isSome := by
  decide +kernel

/-- The trie with the two keys. -/
def nestedTrie : Trie ℕ := ((runSteps trieStep (trieCreate false) nestedKeys).get nestedKeys_runs).1

theorem nestedTrie_run : runSteps trieStep (trieCreate false) nestedKeys =
    some (nestedTrie, ((runSteps trieStep (trieCreate false) nestedKeys).get nestedKeys_runs).2) :=
  (Option.some_get nestedKeys_runs).symm

/-- Removing `TE` also removes `TEST`. -/
theorem removal_loses_extension :
    ¬ ∀ (freeValueCb : Bool) (ops : List (TrieOp ℕ)) (trie : Trie ℕ) (os : List Unit),
      runSteps trieStep (trieCreate freeValueCb) ops = some (trie, os) →
      ∀ key : Key, key.val ≠ [] → ∀ wantsValue, RemovesOnly trie key wantsValue := by
  intro hall
  obtain ⟨trie', r, hrem, -, hothers, -⟩ :=
    hall false nestedKeys nestedTrie _ nestedTrie_run keyTE (by decide) false
  have hbefore : findValue nestedTrie keyTEST = some (some (.given 2, 4)) := by decide +kernel
  have hafter : ((trieRemove nestedTrie keyTE.val false).bind fun r => findValue r.1 keyTEST) =
      some none := by
    decide +kernel
  rw [hrem, Option.bind_some, hothers keyTEST (by decide), hbefore] at hafter
  cases hafter

/-- The equivalence for `TEST`, which no stored key extends. -/
theorem removesOnly_iff_nested :
    keyTEST.val ≠ [] ∧ (RemovesOnly nestedTrie keyTEST false ↔
      ∀ key', key' ≠ keyTEST → keyTEST.val <+: key'.val →
        findValue nestedTrie key' = some none) :=
  ⟨by decide, removesOnly_iff_no_extension false nestedKeys nestedTrie _ nestedTrie_run keyTEST
    (by decide) false⟩

end Trie
end LibHL
