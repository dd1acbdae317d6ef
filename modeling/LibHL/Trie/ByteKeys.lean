import LibHL.Trie.Removal

/-!
# Keys over arbitrary bytes

A key is a C string, so its bytes are not zero.  A call that comes to a byte from 128
on has no result, so the reachable tries are those that keys over smaller bytes lead
to.  With such a byte a search may still end before it comes to it.

`trie_find_or_insert` does what it says unless the node of the key exists without a
value.
-/

namespace LibHL
namespace Trie

variable {V : Type}

/-- The bytes of a C string before its terminator. -/
abbrev CString := { key : List UInt8 // ∀ c ∈ key, c ≠ 0 }

/-- Bytes that a signed `char` holds as numbers that are not negative. -/
def Low (key : List UInt8) : Prop := ∀ c ∈ key, c < 128

instance decidableLow (key : List UInt8) : Decidable (Low key) :=
  List.decidableBAll (fun c => c < 128) key

theorem CString.plain {key : CString} (h : Low key.val) : Plain key.val := by
  intro c hc
  have hne := key.property c hc
  exact ⟨UInt8.pos_iff_ne_zero.mpr hne, h c hc⟩

/-! ## Calls that have a result -/

theorem childIndex_eq_some {c i : UInt8} : childIndex c = some i ↔ c < 128 ∧ i = c := by
  rw [childIndex]
  by_cases hc : c < 128
  · rw [if_pos hc, Option.some.injEq]
    exact ⟨fun h => ⟨hc, h.symm⟩, fun h => h.2.symm⟩
  · rw [if_neg hc]
    constructor
    · intro h
      cases h
    · intro h
      exact absurd h.1 hc

theorem walk_of_findFrom {nodes : Heap (TrieNode V)} : ∀ (key : List UInt8) {a : Addr}
    {r : Option Addr}, findFrom nodes (some a) key = some r → walk nodes a key = r := by
  intro key
  induction key with
  | nil =>
      intro a r hrun
      cases hrun
      rfl
  | cons c key ih =>
      intro a r hrun
      obtain ⟨n, hn, hrun⟩ := Option.bind_eq_some_iff.mp hrun
      obtain ⟨i, hi, hrest⟩ := Option.bind_eq_some_iff.mp hrun
      obtain ⟨-, rfl⟩ := childIndex_eq_some.mp hi
      rw [walk_cons, childOf_of_eq_some hn]
      cases hc : n.child i with
      | none =>
          rw [hc, findFrom] at hrest
          exact Option.some.inj hrest
      | some b =>
          rw [hc] at hrest
          exact ih hrest

theorem Shape.low_of_walk {nodes : Heap (TrieNode V)} {root : Addr} (h : Shape nodes root) :
    ∀ {key : List UInt8} {a : Addr}, walk nodes root key = some a → Low key := by
  intro key
  induction key using List.reverseRecOn with
  | nil => exact fun _ c hc => absurd hc List.not_mem_nil
  | append_singleton p d ih =>
      intro a hw c hc
      rw [walk_snoc, Option.bind_eq_some_iff] at hw
      obtain ⟨x, hx, hxa⟩ := hw
      rcases List.mem_append.mp hc with hc | hc
      · exact ih hx c hc
      · rw [List.mem_singleton.mp hc]
        exact (h.lt_of_childOf hxa).1

theorem low_of_followKey {nodes : Heap (TrieNode V)} : ∀ (key : List UInt8) {a b : Addr}
    {rest : List UInt8}, followKey nodes a key = some (b, rest) → Low rest → Low key := by
  intro key
  induction key with
  | nil =>
      intro a b rest hrun hrest
      cases hrun
      exact hrest
  | cons c key ih =>
      intro a b rest hrun hrest
      obtain ⟨n, -, hrun⟩ := Option.bind_eq_some_iff.mp hrun
      obtain ⟨i, hi, hrun⟩ := Option.bind_eq_some_iff.mp hrun
      obtain ⟨hlow, rfl⟩ := childIndex_eq_some.mp hi
      cases hchild : n.child i with
      | none =>
          simp only [hchild] at hrun
          cases hrun
          exact hrest
      | some tmp =>
          simp only [hchild] at hrun
          intro d hd
          rcases List.mem_cons.mp hd with rfl | hd
          · exact hlow
          · exact ih hrun hrest d hd

theorem low_of_extendKey : ∀ (key : List UInt8) {nodes : Heap (TrieNode V)} {a : Addr} {k : ℕ}
    {r : Heap (TrieNode V) × Addr × ℕ}, extendKey nodes a key k = some r → Low key := by
  intro key
  induction key with
  | nil => exact fun _ c hc => absurd hc List.not_mem_nil
  | cons c key ih =>
      intro nodes a k r hrun
      obtain ⟨i, hi, hrun⟩ := Option.bind_eq_some_iff.mp hrun
      obtain ⟨nodes', -, hrun⟩ := Option.bind_eq_some_iff.mp hrun
      intro d hd
      rcases List.mem_cons.mp hd with rfl | hd
      · exact (childIndex_eq_some.mp hi).1
      · exact ih hrun d hd

/-- An insert with a result had small bytes only. -/
theorem low_of_trieInsert {trie : Trie V} {key : List UInt8} {value : Option V} {vsize : ℕ}
    {copy : Bool} {r : Trie V × ℕ} (hrun : trieInsert trie key value vsize copy = some r) :
    Low key := by
  obtain ⟨⟨a, rest⟩, hfollow, hrun⟩ := Option.bind_eq_some_iff.mp hrun
  obtain ⟨s, hextend, -⟩ := Option.bind_eq_some_iff.mp hrun
  exact low_of_followKey key hfollow (low_of_extendKey rest hextend)

/-- A search for a key with a large byte finds nothing, if it has a result. -/
theorem ShapeOrDestroyed.find_of_not_low {trie : Trie V} (h : ShapeOrDestroyed trie)
    {key : List UInt8} (hlow : ¬ Low key) {r : Option Addr}
    (hfind : trieFindInternal trie key = some r) : r = none := by
  cases r with
  | none => rfl
  | some a =>
      exfalso
      rcases h with h | h
      · exact hlow (h.low_of_walk (walk_of_findFrom key hfind))
      · cases key with
        | nil => exact hlow fun c hc => absurd hc List.not_mem_nil
        | cons c key => simp [trieFindInternal, findFrom, h] at hfind

/-! ## Reachable tries -/

/-- The calls on a trie with any keys; values may be null. -/
inductive AnyOp (V : Type) where
  | insert (key : CString) (value : Option V) (vsize : ℕ) (copy : Bool)
  | findAndInsert (key : CString) (value : Option V) (vsize : ℕ) (copy : Bool)
  | findOrInsert (key : CString) (value : Option V) (vsize : ℕ) (copy : Bool)
  | find (key : CString)
  | remove (key : CString) (wantsValue : Bool)

/-- The key of a call. -/
def AnyOp.key : AnyOp V → CString
  | .insert key _ _ _ => key
  | .findAndInsert key _ _ _ => key
  | .findOrInsert key _ _ _ => key
  | .find key => key
  | .remove key _ => key

/-- One call. -/
def anyStep (trie : Trie V) : AnyOp V → Option (Trie V × Unit)
  | .insert key value vsize copy =>
      (trieInsert trie key.val value vsize copy).map fun r => (r.1, ())
  | .findAndInsert key value vsize copy =>
      (trieFindAndInsert trie key.val value vsize copy).map fun r => (r.1, ())
  | .findOrInsert key value vsize copy =>
      (trieFindOrInsert trie key.val value vsize copy).map fun r => (r.1, ())
  | .find key => (trieFind trie key.val).map fun _ => (trie, ())
  | .remove key wantsValue => (trieRemove trie key.val wantsValue).map fun r => (r.1, ())

theorem exists_trieStep (op : AnyOp V) (h : Low op.key.val) :
    ∃ op' : TrieOp V, ∀ trie, trieStep trie op' = anyStep trie op := by
  cases op with
  | insert key value vsize copy => exact ⟨.insert ⟨_, CString.plain h⟩ value vsize copy, fun _ => rfl⟩
  | findAndInsert key value vsize copy =>
      exact ⟨.findAndInsert ⟨_, CString.plain h⟩ value vsize copy, fun _ => rfl⟩
  | findOrInsert key value vsize copy =>
      exact ⟨.findOrInsert ⟨_, CString.plain h⟩ value vsize copy, fun _ => rfl⟩
  | find key => exact ⟨.find ⟨_, CString.plain h⟩, fun _ => rfl⟩
  | remove key wantsValue => exact ⟨.remove ⟨_, CString.plain h⟩ wantsValue, fun _ => rfl⟩

/-- A call with a large byte changes nothing, if it has a result. -/
theorem anyStep_of_not_low {trie trie' : Trie V} {op : AnyOp V} {o : Unit}
    (h : ShapeOrDestroyed trie) (hlow : ¬ Low op.key.val)
    (hstep : anyStep trie op = some (trie', o)) : trie' = trie := by
  cases op with
  | insert key value vsize copy =>
      obtain ⟨s, hins, -⟩ := Option.map_eq_some_iff.mp hstep
      exact absurd (low_of_trieInsert hins) hlow
  | findAndInsert key value vsize copy =>
      obtain ⟨s, hins, -⟩ := Option.map_eq_some_iff.mp hstep
      obtain ⟨found, hfind, hins⟩ := Option.bind_eq_some_iff.mp hins
      obtain rfl := h.find_of_not_low hlow hfind
      obtain ⟨t, hins, -⟩ := Option.bind_eq_some_iff.mp hins
      exact absurd (low_of_trieInsert hins) hlow
  | findOrInsert key value vsize copy =>
      obtain ⟨s, hins, -⟩ := Option.map_eq_some_iff.mp hstep
      obtain ⟨found, hfind, hins⟩ := Option.bind_eq_some_iff.mp hins
      obtain rfl := h.find_of_not_low hlow hfind
      obtain ⟨t, hins, -⟩ := Option.bind_eq_some_iff.mp hins
      exact absurd (low_of_trieInsert hins) hlow
  | find key =>
      obtain ⟨s, -, heq⟩ := Option.map_eq_some_iff.mp hstep
      cases heq
      rfl
  | remove key wantsValue =>
      obtain ⟨s, hrem, heq⟩ := Option.map_eq_some_iff.mp hstep
      obtain ⟨found, hfind, hrem⟩ := Option.bind_eq_some_iff.mp hrem
      obtain rfl := h.find_of_not_low hlow hfind
      cases hrem
      cases heq
      rfl

theorem anyStep_keeps (trie : Trie V) (op : AnyOp V) (trie' : Trie V) (o : Unit)
    (h : ShapeOrDestroyed trie) (hstep : anyStep trie op = some (trie', o)) :
    ShapeOrDestroyed trie' := by
  by_cases hlow : Low op.key.val
  · obtain ⟨op', hop⟩ := exists_trieStep op hlow
    rw [← hop] at hstep
    exact trieStep_keeps trie op' trie' o h hstep
  · rw [anyStep_of_not_low h hlow hstep]
    exact h

theorem shapeOrDestroyed_of_any {freeValueCb : Bool} {ops : List (AnyOp V)} {trie : Trie V}
    {os : List Unit} (hrun : runSteps anyStep (trieCreate freeValueCb) ops = some (trie, os)) :
    ShapeOrDestroyed trie :=
  invariant_of_all_steps anyStep_keeps ops _ trie os (Or.inl (shape_trieCreate freeValueCb)) hrun

/-! ## Finding or inserting -/

/-- `trie_find_or_insert` hands out the value that the key has and changes nothing, or the
key had no value, has the new one afterwards, and no other key is concerned.  The key has a
value in the end. -/
def FindsOrInserts (trie : Trie V) (key : List UInt8) (value : V) (vsize : ℕ) (copy : Bool) :
    Prop :=
  ∃ trie' r, trieFindOrInsert trie key (some value) vsize copy = some (trie', r) ∧
    ((∃ p, trieFind trie key = some (some p, r.prevVsize) ∧ r.prevValue = some p ∧ trie' = trie) ∨
      (trieFind trie key).map Prod.fst = some none ∧
        (∃ p, trieFind trie' key = some (some p, some vsize) ∧ p.contents = value) ∧
        ∀ q, q ≠ key →
          valueAt trie'.nodes trie'.root q = valueAt trie.nodes trie.root q) ∧
    ∃ p, (trieFind trie' key).map Prod.fst = some (some p)

/-- The root is live, the bytes of the key are small, and if there is a node for the key,
then it has a value. -/
def NodeHasValue (trie : Trie V) (key : List UInt8) : Prop :=
  (trie.nodes trie.root).isSome ∧ Low key ∧
    ∀ a n, walk trie.nodes trie.root key = some a → trie.nodes a = some n → n.value.isSome

/-- What `trie_find` returns at a node, or without one. -/
theorem Shape.trieFind_eq {trie : Trie V} (h : Shape trie.nodes trie.root) {key : List UInt8}
    (hkey : Plain key) :
    (walk trie.nodes trie.root key = none ∧ trieFind trie key = some (none, none)) ∨
      ∃ a n, walk trie.nodes trie.root key = some a ∧ trie.nodes a = some n ∧
        trieFind trie key = some (n.value, some n.vsize) := by
  have hfind := h.trieFindInternal_eq hkey
  cases hw : walk trie.nodes trie.root key with
  | none => exact Or.inl ⟨rfl, by simp [trieFind, hfind, hw]⟩
  | some a =>
      obtain ⟨n, hn⟩ := h.exists_of_walk hw
      exact Or.inr ⟨a, n, rfl, hn, by simp [trieFind, hfind, hw, hn]⟩

/-- A call that has a result had small bytes only. -/
theorem Shape.low_of_findOrInsert {trie : Trie V} (h : Shape trie.nodes trie.root)
    {key : List UInt8} {value : Option V} {vsize : ℕ} {copy : Bool} {r : Trie V × Found V}
    (hrun : trieFindOrInsert trie key value vsize copy = some r) : Low key := by
  obtain ⟨found, hfind, hrun⟩ := Option.bind_eq_some_iff.mp hrun
  cases found with
  | none =>
      obtain ⟨s, hins, -⟩ := Option.bind_eq_some_iff.mp hrun
      exact low_of_trieInsert hins
  | some a => exact h.low_of_walk (walk_of_findFrom key hfind)

/-- With a node for the key, `trie_find_or_insert` changes nothing. -/
theorem Shape.trieFindOrInsert_of_walk {trie : Trie V} (h : Shape trie.nodes trie.root)
    {key : List UInt8} (hkey : Plain key) {a : Addr} {n : TrieNode V}
    (hw : walk trie.nodes trie.root key = some a) (hn : trie.nodes a = some n)
    (value : Option V) (vsize : ℕ) (copy : Bool) :
    trieFindOrInsert trie key value vsize copy = some (trie, ⟨0, n.value, some n.vsize⟩) := by
  have hfind := h.trieFindInternal_eq hkey
  simp [trieFindOrInsert, hfind, hw, hn]

theorem Shape.trieFindOrInsert_of_none {trie trie' : Trie V} (h : Shape trie.nodes trie.root)
    {key : List UInt8} (hkey : Plain key) (hw : walk trie.nodes trie.root key = none)
    {value : Option V} {vsize k : ℕ} {copy : Bool}
    (hins : trieInsert trie key value vsize copy = some (trie', k)) :
    trieFindOrInsert trie key value vsize copy = some (trie', ⟨k, none, none⟩) := by
  have hfind := h.trieFindInternal_eq hkey
  simp [trieFindOrInsert, hfind, hw, hins]

/-- The value that is read after a call that put it there. -/
theorem Shape.trieFind_of_valueAt {trie : Trie V} (h : Shape trie.nodes trie.root)
    {key : List UInt8} (hkey : Plain key) {p : ValuePtr V} {vsize : ℕ}
    (hval : valueAt trie.nodes trie.root key = some (p, vsize)) :
    trieFind trie key = some (some p, some vsize) := by
  rcases h.trieFind_eq hkey with ⟨hw, -⟩ | ⟨a, n, hw, hn, hfind⟩
  · rw [valueAt_of_walk_none hw] at hval
    cases hval
  · rw [valueAt_of_walk hw hn, Option.map_eq_some_iff] at hval
    obtain ⟨p', hp, heq⟩ := hval
    cases heq
    rw [hfind, hp]

theorem Shape.findsOrInserts_iff {trie : Trie V} (h : Shape trie.nodes trie.root) (key : CString)
    (value : V) (vsize : ℕ) (copy : Bool) :
    FindsOrInserts trie key.val value vsize copy ↔ NodeHasValue trie key.val := by
  obtain ⟨root, hroot, -⟩ := h.root
  have hlive : (trie.nodes trie.root).isSome := by
    rw [hroot]
    rfl
  constructor
  · rintro ⟨trie', r, hrun, -, p, hend⟩
    have hlow := h.low_of_findOrInsert hrun
    refine ⟨hlive, hlow, ?_⟩
    intro a n hw hn
    have hkey := CString.plain hlow
    rw [h.trieFindOrInsert_of_walk hkey hw hn] at hrun
    cases hrun
    rcases h.trieFind_eq hkey with ⟨hnone, -⟩ | ⟨b, m, hb, hm, hfind⟩
    · rw [hw] at hnone
      cases hnone
    · rw [hw] at hb
      cases hb
      rw [hn] at hm
      cases hm
      rw [hfind, Option.map_some, Option.some.injEq] at hend
      dsimp only at hend
      rw [hend]
      rfl
  · rintro ⟨-, hlow, hvalue⟩
    have hkey := CString.plain hlow
    rcases h.trieFind_eq hkey with ⟨hw, hfind⟩ | ⟨a, n, hw, hn, hfind⟩
    · obtain ⟨trie', q, rest, ptr, hins, -, -, -, hptr, hshape, -, hval⟩ :=
        h.trieInsert_spec hkey (some value) copy (fun _ => rfl) vsize
      obtain ⟨p, rfl, hp⟩ := Option.map_eq_some_iff.mp hptr
      have hself := hval key.val
      rw [if_pos rfl, Option.map_some] at hself
      have hafter := hshape.trieFind_of_valueAt hkey hself
      refine ⟨trie', _, h.trieFindOrInsert_of_none hkey hw hins,
        Or.inr ⟨?_, ⟨p, hafter, hp⟩, ?_⟩, p, ?_⟩
      · rw [hfind]
        rfl
      · intro q hq
        rw [hval q, if_neg hq]
      · rw [hafter]
        rfl
    · obtain ⟨p, hp⟩ := Option.isSome_iff_exists.mp (hvalue a n hw hn)
      refine ⟨trie, _, h.trieFindOrInsert_of_walk hkey hw hn _ _ _,
        Or.inl ⟨p, ?_, hp, rfl⟩, p, ?_⟩
      · rw [hfind, hp]
      · rw [hfind, hp]
        rfl

/-- In every reachable trie, `trie_find_or_insert` finds or inserts exactly if the key has
small bytes, and no node or one with a value. -/
theorem findsOrInserts_iff_nodeHasValue (freeValueCb : Bool) (ops : List (AnyOp V))
    (trie : Trie V) (os : List Unit)
    (hrun : runSteps anyStep (trieCreate freeValueCb) ops = some (trie, os)) (key : CString)
    (value : V) (vsize : ℕ) (copy : Bool) :
    FindsOrInserts trie key.val value vsize copy ↔ NodeHasValue trie key.val := by
  rcases shapeOrDestroyed_of_any hrun with h | h
  · exact h.findsOrInserts_iff key value vsize copy
  · -- With the root destroyed, neither side holds.
    constructor
    · rintro ⟨trie', r, hcall, -⟩
      exfalso
      obtain ⟨found, hfind, hcall⟩ := Option.bind_eq_some_iff.mp hcall
      rcases findFrom_of_root_none h key.val with hnone | hnone
      · rw [hnone] at hfind
        cases hfind
      · rw [hnone] at hfind
        cases hfind
        obtain ⟨n, hn, -⟩ := Option.bind_eq_some_iff.mp hcall
        rw [h] at hn
        cases hn
    · rintro ⟨hlive, -⟩
      rw [h] at hlive
      cases hlive

/-- `TE` and `TEST` as C strings. -/
def stringTE : CString := ⟨[84, 69], by simp⟩

def stringTEST : CString := ⟨[84, 69, 83, 84], by simp⟩

/-- A run that stores a value at `TEST`. -/
def onlyTEST : List (AnyOp ℕ) := [.insert stringTEST (some 1) 4 false]

theorem onlyTEST_runs : (runSteps anyStep (trieCreate false) onlyTEST).isSome := by
  decide

/-- The trie with the one key. -/
def onlyTESTTrie : Trie ℕ := ((runSteps anyStep (trieCreate false) onlyTEST).get onlyTEST_runs).1

theorem onlyTESTTrie_run : runSteps anyStep (trieCreate false) onlyTEST =
    some (onlyTESTTrie, ((runSteps anyStep (trieCreate false) onlyTEST).get onlyTEST_runs).2) :=
  (Option.some_get onlyTEST_runs).symm

/-- `TE` has a node without a value, and no value is inserted there. -/
theorem findOrInsert_inserts_nothing :
    ¬ ∀ (freeValueCb : Bool) (ops : List (AnyOp ℕ)) (trie : Trie ℕ) (os : List Unit),
      runSteps anyStep (trieCreate freeValueCb) ops = some (trie, os) →
      ∀ (key : CString) (value : ℕ) (vsize : ℕ) (copy : Bool),
        FindsOrInserts trie key.val value vsize copy := by
  intro hall
  obtain ⟨trie', r, hcall, -, p, hend⟩ :=
    hall false onlyTEST onlyTESTTrie _ onlyTESTTrie_run stringTE 2 4 false
  have hafter : ((trieFindOrInsert onlyTESTTrie stringTE.val (some 2) 4 false).bind fun r =>
      (trieFind r.1 stringTE.val).map Prod.fst) = some none := by
    decide
  rw [hcall, Option.bind_some, hend] at hafter
  cases hafter

/-- The equivalence for `TE`. -/
theorem findsOrInserts_iff_stringTE :
    FindsOrInserts onlyTESTTrie stringTE.val 2 4 false ↔
      NodeHasValue onlyTESTTrie stringTE.val :=
  findsOrInserts_iff_nodeHasValue false onlyTEST onlyTESTTrie _ onlyTESTTrie_run stringTE 2 4 false

end Trie
end LibHL
