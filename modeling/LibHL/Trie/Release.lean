import LibHL.Support.LiveCells
import LibHL.Trie.Operations
import Mathlib.Algebra.Order.Group.Multiset
import Mathlib.Tactic.Abel

/-!
# The values a trie holds and releases

A value sits in one node until the node is destroyed or gets another value.  Then it is
released or simply dropped, so what the nodes hold and what was released never grows
through a destruction.  A value that is not a copy is dropped when there is no callback.
-/

namespace LibHL
namespace Trie

variable {V : Type}

/-! ## Values in the nodes -/

/-- A value, if there is one, as a bag. -/
def owned (p : Option (ValuePtr V)) : Multiset (ValuePtr V) := (p.toList : Multiset (ValuePtr V))

/-- The values in the nodes. -/
def held (nodes : Heap (TrieNode V)) : Multiset (ValuePtr V) :=
  (Heap.bag TrieNode.value nodes).filterMap id

/-- The values passed to `free` or to the callback. -/
def released (trie : Trie V) : Multiset (ValuePtr V) :=
  (trie.freed : Multiset (ValuePtr V)) + (trie.passedToCb : Multiset (ValuePtr V))

/-- The values in the nodes and those released. -/
def accounted (trie : Trie V) : Multiset (ValuePtr V) := held trie.nodes + released trie

@[simp] theorem owned_none : owned (none : Option (ValuePtr V)) = 0 := rfl

@[simp] theorem owned_some (p : ValuePtr V) : owned (some p) = {p} := rfl

theorem mem_owned {p : Option (ValuePtr V)} {x : ValuePtr V} : x ∈ owned p ↔ p = some x := by
  cases p with
  | none => simp
  | some y => simp [eq_comm]

theorem filterMap_cons_id (p : Option (ValuePtr V)) (s : Multiset (Option (ValuePtr V))) :
    (p ::ₘ s).filterMap id = owned p + s.filterMap id := by
  cases p with
  | none => rw [Multiset.filterMap_cons_none _ _ rfl, owned_none, zero_add]
  | some x => rw [Multiset.filterMap_cons_some id _ _ rfl, owned_some, Multiset.singleton_add]

section Held

variable {nodes nodes' : Heap (TrieNode V)} {a : Addr} {n m : TrieNode V}

@[simp] theorem held_empty : held (Heap.empty : Heap (TrieNode V)) = 0 := rfl

theorem held_alloc (nodes : Heap (TrieNode V)) (n : TrieNode V) :
    held (nodes.alloc n).1 = owned n.value + held nodes := by
  rw [held, Heap.bag_alloc, filterMap_cons_id, held]

theorem held_kill (hn : nodes a = some n) : held nodes = owned n.value + held (nodes.kill a) := by
  rw [held, Heap.bag_kill hn, filterMap_cons_id, held]

theorem held_put (hn : nodes a = some n) :
    held (nodes.put a m) = owned m.value + held (nodes.kill a) := by
  rw [held, Heap.bag_put hn, filterMap_cons_id, held]

end Held

/-- What leaves a node: a copy always goes to `free`, any other value to the callback if
there is one. -/
def leaving (n : TrieNode V) (freeValueCb : Bool) : Option (ValuePtr V) :=
  if n.isCopy = true ∨ freeValueCb = true then n.value else none

theorem released_releaseValue (trie : Trie V) (n : TrieNode V) (cb : Bool) :
    released (releaseValue trie n cb) = owned (leaving n cb) + released trie := by
  cases hv : n.value with
  | none => simp [releaseValue, leaving, hv]
  | some p =>
      cases hcopy : n.isCopy with
      | true =>
          simp only [releaseValue, leaving, hv, hcopy, released, true_or, if_true, owned_some,
            ← Multiset.coe_add, Multiset.coe_singleton]
          abel
      | false =>
          cases cb with
          | true =>
              simp only [releaseValue, leaving, hv, hcopy, released, or_true, if_true, if_false,
                owned_some, ← Multiset.coe_add, Multiset.coe_singleton, Bool.false_eq_true]
              abel
          | false => simp [releaseValue, leaving, hv, hcopy]

@[simp] theorem releaseValue_blocks (trie : Trie V) (n : TrieNode V) (cb : Bool) :
    (releaseValue trie n cb).blocks = trie.blocks := by
  unfold releaseValue
  split
  · rfl
  · split
    · rfl
    · split <;> rfl

theorem owned_leaving_le (n : TrieNode V) (cb : Bool) : owned (leaving n cb) ≤ owned n.value := by
  rw [leaving]
  split
  · exact le_refl _
  · exact Multiset.zero_le _

/-! ## Destruction -/

/-- Nodes may die, those that survive keep their values, and nothing is released that was
not held. -/
structure Sheds (trie trie' : Trie V) : Prop where
  survivors : ∀ a n', trie'.nodes a = some n' →
    ∃ n, trie.nodes a = some n ∧ n'.value = n.value ∧ n'.isCopy = n.isCopy
  accounts : accounted trie' ≤ accounted trie
  blocks : trie'.blocks = trie.blocks

theorem Sheds.refl (trie : Trie V) : Sheds trie trie :=
  ⟨fun _ n hn => ⟨n, hn, rfl, rfl⟩, le_refl _, rfl⟩

theorem Sheds.trans {trie trie' trie'' : Trie V} (h : Sheds trie trie')
    (h' : Sheds trie' trie'') : Sheds trie trie'' := by
  refine ⟨?_, h'.accounts.trans h.accounts, h'.blocks.trans h.blocks⟩
  intro a n'' hn''
  obtain ⟨n', hn', hvalue', hcopy'⟩ := h'.survivors a n'' hn''
  obtain ⟨n, hn, hvalue, hcopy⟩ := h.survivors a n' hn'
  exact ⟨n, hn, hvalue'.trans hvalue, hcopy'.trans hcopy⟩

section Destroy

variable {trie trie' : Trie V} {a : Addr} {n : TrieNode V} {cb : Bool}

/-- The links of a node change. -/
theorem sheds_relink {nodes : Heap (TrieNode V)} {f : TrieNode V → TrieNode V}
    (hrun : trie.nodes.modify a f = some nodes) (hvalue : ∀ n, (f n).value = n.value)
    (hcopy : ∀ n, (f n).isCopy = n.isCopy) : Sheds trie { trie with nodes := nodes } := by
  obtain ⟨n, hn, rfl⟩ := Option.map_eq_some_iff.mp hrun
  refine ⟨?_, ?_, rfl⟩
  · intro b m hm
    by_cases hb : b = a
    · subst hb
      have hm' : (trie.nodes.put b (f n)) b = some m := hm
      rw [Heap.put_self hn] at hm'
      cases hm'
      exact ⟨n, hn, hvalue n, hcopy n⟩
    · exact ⟨m, by rw [← Heap.put_of_ne hb]; exact hm, rfl, rfl⟩
  · have hheld : held (trie.nodes.put a (f n)) = held trie.nodes := by
      rw [held_put hn, hvalue, ← held_kill hn]
    exact le_of_eq (congrArg (· + released trie) hheld)

theorem clearChild_sheds {parent : Option Addr} {pidx : UInt8}
    (hrun : clearChild trie parent pidx = some trie') : Sheds trie trie' := by
  cases parent with
  | none =>
      cases hrun
      exact Sheds.refl trie
  | some p =>
      obtain ⟨i, -, hrun⟩ := Option.bind_eq_some_iff.mp hrun
      obtain ⟨nodes, hnodes, heq⟩ := Option.bind_eq_some_iff.mp hrun
      cases heq
      exact sheds_relink hnodes (fun _ => rfl) fun _ => rfl

theorem sheds_kill {nodes : Heap (TrieNode V)} (hrun : trie.nodes.free a = some nodes) :
    Sheds trie { trie with nodes := nodes } := by
  obtain ⟨n, hn, rfl⟩ := Option.map_eq_some_iff.mp hrun
  refine ⟨?_, ?_, rfl⟩
  · intro b m hm
    have hm' : (trie.nodes.kill a) b = some m := hm
    rw [Heap.kill_apply] at hm'
    by_cases hb : b = a
    · rw [if_pos hb] at hm'
      cases hm'
    · rw [if_neg hb] at hm'
      exact ⟨m, hm', rfl, rfl⟩
  · have hheld : held (trie.nodes.kill a) ≤ held trie.nodes := by
      rw [held_kill hn]
      exact Multiset.le_add_left _ _
    exact add_le_add_left hheld (released trie)

theorem freeEmptyParents_sheds : ∀ {fuel : ℕ} {trie trie' : Trie V} {parent parent' : Option Addr}
    {pidx pidx' : UInt8},
    freeEmptyParents fuel trie parent pidx = some (trie', parent', pidx') → Sheds trie trie' := by
  intro fuel
  induction fuel with
  | zero =>
      intro trie trie' parent parent' pidx pidx' hrun
      cases parent with
      | none =>
          cases hrun
          exact Sheds.refl trie
      | some p => cases hrun
  | succ fuel ih =>
      intro trie trie' parent parent' pidx pidx' hrun
      cases parent with
      | none =>
          cases hrun
          exact Sheds.refl trie
      | some p =>
          rw [freeEmptyParents] at hrun
          by_cases hroot : p = trie.root
          · rw [if_pos hroot] at hrun
            cases hrun
            exact Sheds.refl trie
          · rw [if_neg hroot] at hrun
            obtain ⟨n, -, hrun⟩ := Option.bind_eq_some_iff.mp hrun
            by_cases hkeep : n.value.isSome ∨ 1 < n.numChildren
            · rw [if_pos hkeep] at hrun
              cases hrun
              exact Sheds.refl trie
            · rw [if_neg hkeep] at hrun
              obtain ⟨nodes, hfree, hrun⟩ := Option.bind_eq_some_iff.mp hrun
              have hkill := sheds_kill hfree
              have hcount : Sheds trie
                  { trie with nodes := nodes, nodeCount := trie.nodeCount - 1 } :=
                ⟨hkill.survivors, hkill.accounts, hkill.blocks⟩
              exact hcount.trans (ih hrun)

/-- The value of the node that dies is counted as held or as released, not as both. -/
theorem freeNode_accounts (hn : trie.nodes a = some n) (hrun : freeNode trie a cb = some trie') :
    accounted trie' + owned n.value = accounted trie + owned (leaving n cb) ∧
      released trie' = owned (leaving n cb) + released trie := by
  obtain ⟨n', hn', hrun⟩ := Option.bind_eq_some_iff.mp hrun
  rw [hn] at hn'
  cases hn'
  obtain ⟨nodes, hfree, heq⟩ := Option.bind_eq_some_iff.mp hrun
  rw [releaseValue_nodes, Heap.free_eq_some hn] at hfree
  cases hfree
  cases heq
  have hreleased := released_releaseValue trie n cb
  refine ⟨?_, hreleased⟩
  show held (trie.nodes.kill a) + released (releaseValue trie n cb) + owned n.value =
    held trie.nodes + released trie + owned (leaving n cb)
  rw [hreleased, held_kill hn]
  abel

theorem freeNode_sheds (hrun : freeNode trie a cb = some trie') : Sheds trie trie' := by
  obtain ⟨n, hn, hrest⟩ := Option.bind_eq_some_iff.mp hrun
  obtain ⟨haccounts, -⟩ := freeNode_accounts hn hrun
  obtain ⟨nodes, hfree, heq⟩ := Option.bind_eq_some_iff.mp hrest
  rw [releaseValue_nodes] at hfree
  cases heq
  refine ⟨(sheds_kill hfree).survivors, ?_, releaseValue_blocks trie n cb⟩
  refine le_of_add_le_add_right (a := owned n.value) ?_
  rw [haccounts]
  exact add_le_add_right (owned_leaving_le n cb) _

theorem destroyChildren_sheds {destroy : Trie V → Addr → Option (Trie V)}
    (hdestroy : ∀ trie a trie', destroy trie a = some trie' → Sheds trie trie') (a : Addr) :
    ∀ (is : List UInt8) {trie trie' : Trie V},
      destroyChildren destroy a trie is = some trie' → Sheds trie trie' := by
  intro is
  induction is with
  | nil =>
      intro trie trie' hrun
      cases hrun
      exact Sheds.refl trie
  | cons i is ih =>
      intro trie trie' hrun
      rw [destroyChildren] at hrun
      obtain ⟨n, -, hrun⟩ := Option.bind_eq_some_iff.mp hrun
      cases hc : n.child i with
      | none =>
          simp only [hc] at hrun
          exact ih hrun
      | some c =>
          simp only [hc] at hrun
          obtain ⟨nodes, hnodes, hrun⟩ := Option.bind_eq_some_iff.mp hrun
          obtain ⟨trie₁, hrun₁, hrun⟩ := Option.bind_eq_some_iff.mp hrun
          obtain ⟨trie₂, hrun₂, hrun⟩ := Option.bind_eq_some_iff.mp hrun
          have hlinks : Sheds trie { trie with nodes := nodes } :=
            sheds_relink hnodes (fun _ => rfl) fun _ => rfl
          exact hlinks.trans ((hdestroy _ _ _ hrun₁).trans ((clearChild_sheds hrun₂).trans (ih hrun)))

theorem trieNodeDestroy_last {fuel : ℕ}
    (hsheds : ∀ trie a trie', trieNodeDestroy cb fuel trie a = some trie' →
      Sheds (V := V) trie trie')
    (hrun : trieNodeDestroy cb (fuel + 1) trie a = some trie') :
    ∃ trie₁, Sheds trie trie₁ ∧ freeNode trie₁ a cb = some trie' := by
  rw [trieNodeDestroy] at hrun
  obtain ⟨n, -, hrun⟩ := Option.bind_eq_some_iff.mp hrun
  obtain ⟨⟨trie₁, parent, pidx⟩, hparents, hrun⟩ := Option.bind_eq_some_iff.mp hrun
  obtain ⟨trie₂, hclear, hrun⟩ := Option.bind_eq_some_iff.mp hrun
  obtain ⟨trie₃, hchildren, hrun⟩ := Option.bind_eq_some_iff.mp hrun
  have h₁ := freeEmptyParents_sheds hparents
  have h₂ := clearChild_sheds hclear
  have h₃ := destroyChildren_sheds hsheds a childIndices hchildren
  exact ⟨trie₃, h₁.trans (h₂.trans h₃), hrun⟩

theorem trieNodeDestroy_sheds : ∀ {fuel : ℕ} {trie : Trie V} {a : Addr} {trie' : Trie V},
    trieNodeDestroy cb fuel trie a = some trie' → Sheds trie trie' := by
  intro fuel
  induction fuel with
  | zero =>
      intro trie a trie' hrun
      cases hrun
  | succ fuel ih =>
      intro trie a trie' hrun
      obtain ⟨trie₁, h₁, hlast⟩ := trieNodeDestroy_last (fun _ _ _ => ih) hrun
      exact h₁.trans (freeNode_sheds hlast)

/-- The value of the destroyed node is released if it leaves, and else dropped. -/
theorem trieNodeDestroy_accounts {fuel : ℕ} (hn : trie.nodes a = some n)
    (hrun : trieNodeDestroy cb fuel trie a = some trie') :
    accounted trie' + owned n.value ≤ accounted trie + owned (leaving n cb) ∧
      ∀ p ∈ owned (leaving n cb), p ∈ released trie' := by
  cases fuel with
  | zero => cases hrun
  | succ fuel =>
      obtain ⟨trie₁, h₁, hlast⟩ :=
        trieNodeDestroy_last (fun _ _ _ => trieNodeDestroy_sheds) hrun
      obtain ⟨n₁, hn₁, -⟩ := Option.bind_eq_some_iff.mp hlast
      obtain ⟨m, hm, hvalue, hcopy⟩ := h₁.survivors a n₁ hn₁
      rw [hn] at hm
      cases hm
      have hleaving : leaving n₁ cb = leaving n cb := by
        rw [leaving, leaving, hvalue, hcopy]
      obtain ⟨haccounts, hreleased⟩ := freeNode_accounts hn₁ hlast
      rw [hvalue, hleaving] at haccounts
      rw [hleaving] at hreleased
      constructor
      · rw [haccounts]
        exact add_le_add_left h₁.accounts _
      · intro p hp
        rw [hreleased]
        exact Multiset.mem_add.mpr (Or.inl hp)

end Destroy

/-! ## Setting a value -/

section SetValue

variable {trie trie' : Trie V} {a : Addr} {n : TrieNode V}

/-- The pointer that is stored for a value; a copy gets the next block. -/
def storedPtr (trie : Trie V) (value : Option V) (copy : Bool) : Option (ValuePtr V) :=
  value.map fun v => if copy then .copied trie.blocks v else .given v

/-- The new value takes the place of the old one, which is released if it leaves. -/
theorem trieNodeSetValue_accounts {value : Option V} {vsize : ℕ} {copy : Bool}
    (hn : trie.nodes a = some n)
    (hrun : trieNodeSetValue trie a value vsize copy = some trie') :
    accounted trie' + owned n.value =
        accounted trie + owned (leaving n trie.freeValueCb) + owned (storedPtr trie value copy) ∧
      (∀ p ∈ owned (leaving n trie.freeValueCb), p ∈ released trie') ∧
      trie'.blocks = trie.blocks + if copy then 1 else 0 := by
  have hreleased := released_releaseValue trie n trie.freeValueCb
  have hmod : ∀ m : TrieNode V, ∀ ptr, m.value = ptr →
      held (trie.nodes.put a m) + released (releaseValue trie n trie.freeValueCb) +
          owned n.value =
        held trie.nodes + released trie + owned (leaving n trie.freeValueCb) + owned ptr := by
    rintro m ptr rfl
    rw [held_put hn, held_kill hn, hreleased]
    abel
  have hmem : ∀ p ∈ owned (leaving n trie.freeValueCb),
      p ∈ released (releaseValue trie n trie.freeValueCb) := by
    intro p hp
    rw [hreleased]
    exact Multiset.mem_add.mpr (Or.inl hp)
  obtain ⟨n', hn', hrun⟩ := Option.bind_eq_some_iff.mp hrun
  rw [hn] at hn'
  cases hn'
  cases copy with
  | true =>
      obtain ⟨v, rfl, hrun⟩ := Option.bind_eq_some_iff.mp hrun
      obtain ⟨nodes, hnodes, heq⟩ := Option.bind_eq_some_iff.mp hrun
      rw [releaseValue_nodes, Heap.modify_eq_some _ hn] at hnodes
      cases hnodes
      cases heq
      refine ⟨hmod _ _ ?_, hmem, ?_⟩
      · simp [storedPtr]
      · simp
  | false =>
      obtain ⟨nodes, hnodes, heq⟩ := Option.bind_eq_some_iff.mp hrun
      rw [releaseValue_nodes, Heap.modify_eq_some _ hn] at hnodes
      cases hnodes
      cases heq
      refine ⟨hmod _ _ ?_, hmem, ?_⟩
      · cases value with
        | none => rfl
        | some v => rfl
      · simp

end SetValue

theorem extendKey_held : ∀ (key : List UInt8) {nodes nodes' : Heap (TrieNode V)} {a b : Addr}
    {k k' : ℕ}, extendKey nodes a key k = some (nodes', b, k') → held nodes' = held nodes := by
  intro key
  induction key with
  | nil =>
      intro nodes nodes' a b k k' hrun
      cases hrun
      rfl
  | cons c key ih =>
      intro nodes nodes' a b k k' hrun
      obtain ⟨i, -, hrun⟩ := Option.bind_eq_some_iff.mp hrun
      obtain ⟨nodes₁, hnodes, hrun⟩ := Option.bind_eq_some_iff.mp hrun
      obtain ⟨n, hn, rfl⟩ := Option.map_eq_some_iff.mp hnodes
      rw [ih hrun, held_put hn]
      exact (held_kill hn).symm.trans (held_alloc nodes _)

end Trie
end LibHL
