import LibHL.Trie.Model
import Mathlib.Data.Finset.Card
import Mathlib.Data.List.Induction

/-!
# The shape of a trie

A key is looked up by walking along the children from the root.  The shape says
that children and parents agree; since a child also knows its index, a node is
reached by one key only, and what happens at a node concerns no other key.

A node is allocated after its parent, so addresses grow along every branch.
-/

namespace LibHL
namespace Trie

variable {V : Type}

/-! ## The children of a node -/

theorem mem_childIndices (c : UInt8) : c ∈ childIndices :=
  List.mem_map.mpr ⟨c.toFin, List.mem_finRange _, rfl⟩

theorem nodup_childIndices : childIndices.Nodup := by
  refine (List.nodup_finRange 256).map ?_
  intro i j hij
  exact congrArg UInt8.toFin hij

/-- The indices of the children of a node. -/
def childSet (n : TrieNode V) : Finset UInt8 :=
  childIndices.toFinset.filter fun c => (n.child c).isSome

theorem mem_childSet {n : TrieNode V} {c : UInt8} :
    c ∈ childSet n ↔ (n.child c).isSome := by
  rw [childSet, Finset.mem_filter, List.mem_toFinset]
  exact and_iff_right (mem_childIndices c)

theorem childSet_congr {n m : TrieNode V} (h : m.child = n.child) :
    childSet m = childSet n := by
  ext c
  rw [mem_childSet, mem_childSet, h]

@[simp] theorem setChild_child_self (n : TrieNode V) (i : UInt8) (p : Option Addr) :
    (n.setChild i p).child i = p := by
  simp [TrieNode.setChild]

theorem setChild_child_of_ne {n : TrieNode V} {i j : UInt8} (p : Option Addr) (h : j ≠ i) :
    (n.setChild i p).child j = n.child j := by
  simp [TrieNode.setChild, h]

theorem childSet_setChild_some (n : TrieNode V) (i : UInt8) (a : Addr) :
    childSet (n.setChild i (some a)) = insert i (childSet n) := by
  ext c
  rw [Finset.mem_insert, mem_childSet, mem_childSet]
  by_cases hc : c = i
  · simp [hc]
  · simp [hc, setChild_child_of_ne _ hc]

theorem childSet_setChild_none (n : TrieNode V) (i : UInt8) :
    childSet (n.setChild i none) = (childSet n).erase i := by
  ext c
  rw [Finset.mem_erase, mem_childSet, mem_childSet]
  by_cases hc : c = i
  · simp [hc]
  · simp [hc, setChild_child_of_ne _ hc]

/-- The child of a node at an index. -/
def childOf (nodes : Heap (TrieNode V)) (a : Addr) (c : UInt8) : Option Addr :=
  (nodes a).bind fun n => n.child c

theorem childOf_of_eq_some {nodes : Heap (TrieNode V)} {a : Addr} {n : TrieNode V}
    (h : nodes a = some n) (c : UInt8) : childOf nodes a c = n.child c := by
  rw [childOf, h, Option.bind_some]

/-! ## Walks -/

/-- The node that a key leads to. -/
def walk (nodes : Heap (TrieNode V)) : Addr → List UInt8 → Option Addr
  | a, [] => some a
  | a, c :: key => (childOf nodes a c).bind fun b => walk nodes b key

@[simp] theorem walk_nil (nodes : Heap (TrieNode V)) (a : Addr) : walk nodes a [] = some a := rfl

theorem walk_cons (nodes : Heap (TrieNode V)) (a : Addr) (c : UInt8) (key : List UInt8) :
    walk nodes a (c :: key) = (childOf nodes a c).bind fun b => walk nodes b key := rfl

theorem walk_append (nodes : Heap (TrieNode V)) (a : Addr) (p q : List UInt8) :
    walk nodes a (p ++ q) = (walk nodes a p).bind fun b => walk nodes b q := by
  induction p generalizing a with
  | nil => rfl
  | cons c p ih =>
      rw [List.cons_append, walk_cons, walk_cons]
      cases hc : childOf nodes a c with
      | none => rfl
      | some b => exact ih b

theorem walk_snoc (nodes : Heap (TrieNode V)) (a : Addr) (p : List UInt8) (c : UInt8) :
    walk nodes a (p ++ [c]) = (walk nodes a p).bind fun b => childOf nodes b c := by
  rw [walk_append]
  congr 1
  funext b
  rw [walk_cons]
  exact Option.bind_fun_some _

theorem walk_snoc_of_walk {nodes : Heap (TrieNode V)} {a b : Addr} {p : List UInt8}
    (h : walk nodes a p = some b) (c : UInt8) :
    walk nodes a (p ++ [c]) = childOf nodes b c := by
  rw [walk_snoc, h, Option.bind_some]

theorem walk_initial {nodes : Heap (TrieNode V)} {a b : Addr} {p q : List UInt8}
    (hpq : p <+: q) (h : walk nodes a q = some b) : ∃ x, walk nodes a p = some x := by
  obtain ⟨r, rfl⟩ := hpq
  rw [walk_append, Option.bind_eq_some_iff] at h
  obtain ⟨x, hx, -⟩ := h
  exact ⟨x, hx⟩

theorem walk_none_of_initial {nodes : Heap (TrieNode V)} {a : Addr} {p q : List UInt8}
    (hpq : p <+: q) (h : walk nodes a p = none) : walk nodes a q = none := by
  obtain ⟨r, rfl⟩ := hpq
  rw [walk_append, h, Option.bind_none]

/-- A function that starts at the node and follows the children is the walk. -/
theorem walk_eq_of_snoc {nodes : Heap (TrieNode V)} {a : Addr} (f : List UInt8 → Option Addr)
    (hnil : f [] = some a)
    (hsnoc : ∀ p c, f (p ++ [c]) = (f p).bind fun b => childOf nodes b c) (key : List UInt8) :
    walk nodes a key = f key := by
  induction key using List.reverseRecOn with
  | nil => rw [walk_nil, hnil]
  | append_singleton p c ih => rw [walk_snoc, ih, hsnoc]

theorem walk_congr {nodes nodes' : Heap (TrieNode V)}
    (h : ∀ a c, childOf nodes' a c = childOf nodes a c) (a : Addr) (key : List UInt8) :
    walk nodes' a key = walk nodes a key := by
  refine walk_eq_of_snoc (walk nodes a) rfl ?_ key
  intro p c
  rw [walk_snoc]
  congr 1
  funext b
  exact (h b c).symm

/-! ## The shape -/

/-- Children and parents agree, the root is the node without parent, and the
number of children is right. -/
structure Shape (nodes : Heap (TrieNode V)) (root : Addr) : Prop where
  root : ∃ n, nodes root = some n ∧ n.parent = none
  child : ∀ a n c b, nodes a = some n → n.child c = some b →
    ∃ m, nodes b = some m ∧ m.parent = some a ∧ m.pidx = c
  lower : ∀ a n c b, nodes a = some n → n.child c = some b → c < 128 ∧ a < b
  parent : ∀ b m a, nodes b = some m → m.parent = some a →
    ∃ n, nodes a = some n ∧ n.child m.pidx = some b
  numChildren : ∀ a n, nodes a = some n → n.numChildren = (childSet n).card

namespace Shape

variable {nodes nodes' : Heap (TrieNode V)} {root a b : Addr} {n m : TrieNode V}
  {p q key : List UInt8} {c : UInt8}

theorem ne_root_of_childOf (h : Shape nodes root) (hb : childOf nodes a c = some b) :
    b ≠ root := by
  rintro rfl
  obtain ⟨n, hn, hnc⟩ := Option.bind_eq_some_iff.mp hb
  obtain ⟨m, hm, hpar, -⟩ := h.child a n c b hn hnc
  obtain ⟨r, hr, hrpar⟩ := h.root
  rw [hm] at hr
  cases hr
  rw [hpar] at hrpar
  cases hrpar

/-- A node is the child of one node only, and at one index. -/
theorem childOf_inj (h : Shape nodes root) {a' : Addr} {c' : UInt8}
    (hb : childOf nodes a c = some b) (hb' : childOf nodes a' c' = some b) :
    a = a' ∧ c = c' := by
  obtain ⟨n, hn, hnc⟩ := Option.bind_eq_some_iff.mp hb
  obtain ⟨n', hn', hnc'⟩ := Option.bind_eq_some_iff.mp hb'
  obtain ⟨m, hm, hpar, hidx⟩ := h.child a n c b hn hnc
  obtain ⟨m', hm', hpar', hidx'⟩ := h.child a' n' c' b hn' hnc'
  rw [hm] at hm'
  cases hm'
  rw [hpar] at hpar'
  exact ⟨Option.some.inj hpar', hidx.symm.trans hidx'⟩

/-- A node is reached by one key only. -/
theorem walk_inj (h : Shape nodes root) :
    ∀ {p q : List UInt8} {a : Addr}, walk nodes root p = some a → walk nodes root q = some a →
      p = q := by
  intro p
  induction p using List.reverseRecOn with
  | nil =>
      intro q a hp hq
      cases hp
      induction q using List.reverseRecOn with
      | nil => rfl
      | append_singleton q c _ =>
          rw [walk_snoc, Option.bind_eq_some_iff] at hq
          obtain ⟨b, -, hb⟩ := hq
          exact absurd rfl (h.ne_root_of_childOf hb)
  | append_singleton p c ih =>
      intro q a hp hq
      rw [walk_snoc, Option.bind_eq_some_iff] at hp
      obtain ⟨b, hb, hba⟩ := hp
      induction q using List.reverseRecOn with
      | nil =>
          cases hq
          exact absurd rfl (h.ne_root_of_childOf hba)
      | append_singleton q d _ =>
          rw [walk_snoc, Option.bind_eq_some_iff] at hq
          obtain ⟨b', hb', hba'⟩ := hq
          obtain ⟨rfl, rfl⟩ := h.childOf_inj hba hba'
          rw [ih hb hb']

theorem exists_of_walk (h : Shape nodes root) (hw : walk nodes root key = some a) :
    ∃ n, nodes a = some n := by
  induction key using List.reverseRecOn with
  | nil =>
      cases hw
      obtain ⟨n, hn, -⟩ := h.root
      exact ⟨n, hn⟩
  | append_singleton p c _ =>
      rw [walk_snoc, Option.bind_eq_some_iff] at hw
      obtain ⟨b, -, hb⟩ := hw
      obtain ⟨n, hn, hnc⟩ := Option.bind_eq_some_iff.mp hb
      obtain ⟨m, hm, -⟩ := h.child b n c a hn hnc
      exact ⟨m, hm⟩

theorem lt_of_childOf (h : Shape nodes root) (hb : childOf nodes a c = some b) :
    c < 128 ∧ a < b := by
  obtain ⟨n, hn, hnc⟩ := Option.bind_eq_some_iff.mp hb
  exact h.lower a n c b hn hnc

end Shape

/-! ## Searches follow walks -/

/-- The bytes that a signed `char` holds as positive numbers, without the
terminator. -/
def Plain (key : List UInt8) : Prop := ∀ c ∈ key, 0 < c ∧ c < 128

instance (key : List UInt8) : Decidable (Plain key) :=
  List.decidableBAll (fun c => 0 < c ∧ c < 128) key

theorem Plain.tail {c : UInt8} {key : List UInt8} (h : Plain (c :: key)) : Plain key :=
  fun d hd => h d (List.mem_cons_of_mem c hd)

theorem Plain.childIndex {c : UInt8} {key : List UInt8} (h : Plain (c :: key)) :
    childIndex c = some c :=
  if_pos (h c List.mem_cons_self).2

section Searches

variable {nodes : Heap (TrieNode V)} {root a : Addr} {p key : List UInt8}

theorem Shape.findFrom_eq (h : Shape nodes root) (hkey : Plain key)
    (hp : walk nodes root p = some a) :
    findFrom nodes (some a) key = some (walk nodes a key) := by
  induction key generalizing p a with
  | nil => rfl
  | cons c key ih =>
      obtain ⟨n, hn⟩ := h.exists_of_walk hp
      have hstep : findFrom nodes (some a) (c :: key) = findFrom nodes (n.child c) key := by
        simp only [findFrom, hn, hkey.childIndex, Option.bind_eq_bind, Option.bind_some]
      rw [hstep, walk_cons, childOf_of_eq_some hn]
      cases hc : n.child c with
      | none => simp [findFrom]
      | some b =>
          refine ih hkey.tail (p := p ++ [c]) ?_
          rw [walk_snoc_of_walk hp, childOf_of_eq_some hn, hc]

theorem Shape.trieFindInternal_eq {trie : Trie V} (h : Shape trie.nodes trie.root)
    (hkey : Plain key) :
    trieFindInternal trie key = some (walk trie.nodes trie.root key) :=
  h.findFrom_eq hkey (p := []) rfl

/-- The first loop of `trie_insert` stops at the end of the longest way that the
key has in the trie. -/
theorem Shape.followKey_eq (h : Shape nodes root) (hkey : Plain key)
    (hp : walk nodes root p = some a) :
    ∃ q rest b, followKey nodes a key = some (b, rest) ∧ key = q ++ rest ∧
      walk nodes root (p ++ q) = some b ∧ Plain rest ∧
      ∀ c rest', rest = c :: rest' → childOf nodes b c = none := by
  induction key generalizing p a with
  | nil =>
      refine ⟨[], [], a, rfl, rfl, ?_, hkey, nofun⟩
      rw [List.append_nil, hp]
  | cons c key ih =>
      obtain ⟨n, hn⟩ := h.exists_of_walk hp
      rw [followKey, hn, hkey.childIndex]
      cases hc : n.child c with
      | none =>
          refine ⟨[], c :: key, a, ?_, rfl, ?_, hkey, ?_⟩
          · simp only [Option.bind_eq_bind, Option.bind_some, hc]
          · rw [List.append_nil, hp]
          · intro d rest' hd
            cases hd
            rw [childOf_of_eq_some hn, hc]
      | some b =>
          have hb : walk nodes root (p ++ [c]) = some b := by
            rw [walk_snoc_of_walk hp, childOf_of_eq_some hn, hc]
          obtain ⟨q, rest, x, hfollow, hsplit, hx, hrest, hstop⟩ := ih hkey.tail hb
          refine ⟨c :: q, rest, x, ?_, ?_, ?_, hrest, hstop⟩
          · simp only [Option.bind_eq_bind, Option.bind_some, hc]
            exact hfollow
          · rw [hsplit, List.cons_append]
          · rw [← hx, List.append_assoc, List.singleton_append]

end Searches

end Trie
end LibHL
