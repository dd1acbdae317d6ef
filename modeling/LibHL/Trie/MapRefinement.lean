import LibHL.Support.Run
import LibHL.Trie.Operations
import Mathlib.Order.Nat
import Mathlib.Data.Nat.Find

/-!
# A trie is a map from keys to values

The reference component remembers every insert.  It answers a search with the
last insert for that very key, and it counts the new nodes of an insert from the
longest prefix of the key that some earlier key has too.
-/

namespace LibHL
namespace Trie

variable {V : Type}

/-- Keys made of the bytes 1 to 127. -/
abbrev Key := { key : List UInt8 // Plain key }

/-! ## Runs -/

/-- The calls of a run that never removes, with values that are not null. -/
inductive MapOp (V : Type) where
  | insert (key : Key) (value : V) (vsize : ℕ) (copy : Bool)
  | findAndInsert (key : Key) (value : V) (vsize : ℕ) (copy : Bool)
  | find (key : Key)

/-- What the calls return; a value comes with its size. -/
inductive MapOut (V : Type) where
  | inserted (newNodes : ℕ)
  | foundAndInserted (newNodes : ℕ) (prev : Option (V × ℕ))
  | found (value : Option (V × ℕ))
deriving DecidableEq, Repr

/-- What the caller reads behind a value pointer and the size written with it. -/
def readValue (value : Option (ValuePtr V)) (vsize : Option ℕ) : Option (V × ℕ) :=
  value.bind fun p => vsize.map fun n => (p.contents, n)

/-- One call. -/
def mapStep (trie : Trie V) : MapOp V → Option (Trie V × MapOut V)
  | .insert key value vsize copy =>
      (trieInsert trie key.val (some value) vsize copy).map fun r => (r.1, .inserted r.2)
  | .findAndInsert key value vsize copy =>
      (trieFindAndInsert trie key.val (some value) vsize copy).map fun r =>
        (r.1, .foundAndInserted r.2.newNodes (readValue r.2.prevValue r.2.prevVsize))
  | .find key => (trieFind trie key.val).map fun r => (trie, .found (readValue r.1 r.2))

/-! ## The reference -/

/-- The inserts so far, the last one first. -/
abbrev Inserts (V : Type) := List (Key × V × ℕ)

/-- The value and the size of the last insert for exactly this key. -/
def lastInsert (inserts : Inserts V) (key : Key) : Option (V × ℕ) :=
  (inserts.find? fun e => e.1 = key).map Prod.snd

/-- The empty prefix and the prefixes of inserted keys are represented. -/
def Represented (inserts : Inserts V) (q : List UInt8) : Prop :=
  q = [] ∨ ∃ e ∈ inserts, q <+: e.1.val

instance (inserts : Inserts V) (q : List UInt8) : Decidable (Represented inserts q) :=
  inferInstanceAs (Decidable (q = [] ∨ ∃ e ∈ inserts, q <+: e.1.val))

/-- The length of the longest prefix of a key that is represented. -/
def longestRepresented (inserts : Inserts V) (key : Key) : ℕ :=
  Nat.findGreatest (fun n => Represented inserts (key.val.take n)) key.val.length

/-- The number of nodes that an insert has to create. -/
def missingNodes (inserts : Inserts V) (key : Key) : ℕ :=
  key.val.length - longestRepresented inserts key

/-- One call on the reference. -/
def mapRef (inserts : Inserts V) : MapOp V → Inserts V × MapOut V
  | .insert key value vsize _ =>
      ((key, value, vsize) :: inserts, .inserted (missingNodes inserts key))
  | .findAndInsert key value vsize _ =>
      ((key, value, vsize) :: inserts,
        .foundAndInserted (missingNodes inserts key) (lastInsert inserts key))
  | .find key => (inserts, .found (lastInsert inserts key))

/-! ## The simulation -/

/-- The trie represents the inserts. -/
structure Represents (trie : Trie V) (inserts : Inserts V) : Prop where
  shape : Shape trie.nodes trie.root
  nodes : ∀ q, (walk trie.nodes trie.root q).isSome ↔ Represented inserts q
  values : ∀ key : Key, (valueAt trie.nodes trie.root key.val).map (fun r => (r.1.contents, r.2)) =
    lastInsert inserts key

theorem represents_trieCreate (freeValueCb : Bool) :
    Represents (trieCreate freeValueCb : Trie V) [] where
  shape := shape_trieCreate freeValueCb
  nodes := by
    intro q
    cases q with
    | nil => simp [Represented]
    | cons c q => simp [Represented, walk_cons, childOf, trieCreate, newNode, Heap.alloc_apply]
  values := by
    intro key
    cases hkey : key.val with
    | nil => rfl
    | cons c q => rfl

theorem lastInsert_cons (inserts : Inserts V) (key : Key) (r : V × ℕ) (q : Key) :
    lastInsert ((key, r) :: inserts) q = if q = key then some r else lastInsert inserts q := by
  by_cases hq : key = q
  · simp [lastInsert, hq]
  · have hq' : q ≠ key := fun h => hq h.symm
    simp [lastInsert, hq, hq']

theorem represented_cons (inserts : Inserts V) (key : Key) (r : V × ℕ) (q : List UInt8) :
    Represented ((key, r) :: inserts) q ↔ Represented inserts q ∨ q <+: key.val := by
  unfold Represented
  constructor
  · rintro (hq | ⟨e, he, hqe⟩)
    · exact Or.inl (Or.inl hq)
    · rcases List.mem_cons.mp he with rfl | he
      · exact Or.inr hqe
      · exact Or.inl (Or.inr ⟨e, he, hqe⟩)
  · rintro ((hq | ⟨e, he, hqe⟩) | hq)
    · exact Or.inl hq
    · exact Or.inr ⟨e, List.mem_cons_of_mem _ he, hqe⟩
    · exact Or.inr ⟨_, List.mem_cons_self, hq⟩

namespace Represents

variable {trie trie' : Trie V} {inserts : Inserts V} {key : Key}

theorem trieFindInternal_eq (h : Represents trie inserts) (key : Key) :
    trieFindInternal trie key.val = some (walk trie.nodes trie.root key.val) :=
  h.shape.trieFindInternal_eq key.property

/-- What is read at the node of a key is what the last insert for the key put
there. -/
theorem readValue_eq (h : Represents trie inserts) {node : Addr} {n : TrieNode V}
    (hw : walk trie.nodes trie.root key.val = some node) (hn : trie.nodes node = some n) :
    readValue n.value (some n.vsize) = lastInsert inserts key := by
  rw [← h.values key, valueAt_of_walk hw hn]
  cases hv : n.value with
  | none => rfl
  | some p => rfl

theorem lastInsert_of_walk_none (h : Represents trie inserts)
    (hw : walk trie.nodes trie.root key.val = none) : lastInsert inserts key = none := by
  rw [← h.values key, valueAt_of_walk_none hw, Option.map_none]

/-- The new nodes of an insert are those behind the longest represented prefix. -/
theorem missingNodes_eq (h : Represents trie inserts) {q rest : List UInt8}
    (hsplit : key.val = q ++ rest) (hq : (walk trie.nodes trie.root q).isSome)
    (hstop : ∀ c rest', rest = c :: rest' → walk trie.nodes trie.root (q ++ [c]) = none) :
    missingNodes inserts key = rest.length := by
  have hlen : key.val.length = q.length + rest.length := by
    rw [hsplit, List.length_append]
  have hgreatest : longestRepresented inserts key = q.length := by
    rw [longestRepresented, Nat.findGreatest_eq_iff]
    refine ⟨by omega, ?_, ?_⟩
    · intro _
      rw [hsplit, List.take_left, ← h.nodes q]
      exact hq
    · intro n hlt hle hrep
      cases hrest : rest with
      | nil =>
          rw [hrest, List.length_nil] at hlen
          omega
      | cons c rest' =>
          -- A longer prefix passes through the child that is missing.
          have hpre : q ++ [c] <+: key.val.take n := by
            rw [List.prefix_take_iff, hsplit, hrest]
            refine ⟨?_, ?_⟩
            · exact ⟨rest', by rw [List.append_assoc, List.singleton_append]⟩
            · rw [List.length_append, List.length_singleton]
              exact hlt
          rw [← h.nodes, walk_none_of_initial hpre (hstop c rest' hrest)] at hrep
          cases hrep
  rw [missingNodes, hgreatest, hlen]
  omega

theorem missingNodes_of_walk (h : Represents trie inserts)
    (hw : (walk trie.nodes trie.root key.val).isSome) : missingNodes inserts key = 0 :=
  @missingNodes_eq _ _ _ _ h key.val [] (List.append_nil _).symm hw nofun

/-- The relation after an insert, from what the insert does to walks and values. -/
theorem cons (h : Represents trie inserts) {value : V} {vsize : ℕ}
    {ptr : Option (ValuePtr V)} (hshape : Shape trie'.nodes trie'.root)
    (hptr : ptr.map ValuePtr.contents = some value)
    (hwalk : ∀ q, (walk trie'.nodes trie'.root q).isSome ↔
      (walk trie.nodes trie.root q).isSome ∨ q <+: key.val)
    (hval : ∀ q, valueAt trie'.nodes trie'.root q =
      if q = key.val then ptr.map fun p => (p, vsize) else valueAt trie.nodes trie.root q) :
    Represents trie' ((key, value, vsize) :: inserts) where
  shape := hshape
  nodes := by
    intro q
    rw [hwalk q, represented_cons, h.nodes q]
  values := by
    intro q
    rw [hval q.val, lastInsert_cons]
    obtain ⟨p, rfl, hp⟩ := Option.map_eq_some_iff.mp hptr
    by_cases hq : q = key
    · rw [if_pos (congrArg Subtype.val hq), if_pos hq, ← hp]
      rfl
    · rw [if_neg (fun heq => hq (Subtype.ext heq)), if_neg hq]
      exact h.values q

theorem trieInsert (h : Represents trie inserts) (key : Key) (value : V) (vsize : ℕ)
    (copy : Bool) :
    ∃ trie', trieInsert trie key.val (some value) vsize copy =
        some (trie', missingNodes inserts key) ∧
      Represents trie' ((key, value, vsize) :: inserts) := by
  obtain ⟨trie', q, rest, ptr, hins, hsplit, hq, hstop, hptr, hshape, hwalk, hval⟩ :=
    h.shape.trieInsert_spec key.property (some value) copy (fun _ => rfl) vsize
  refine ⟨trie', ?_, h.cons hshape hptr hwalk hval⟩
  rw [hins, h.missingNodes_eq hsplit hq hstop]

theorem trieFindAndInsert (h : Represents trie inserts) (key : Key) (value : V) (vsize : ℕ)
    (copy : Bool) :
    ∃ trie' r, trieFindAndInsert trie key.val (some value) vsize copy = some (trie', r) ∧
      r.newNodes = missingNodes inserts key ∧
      readValue r.prevValue r.prevVsize = lastInsert inserts key ∧
      Represents trie' ((key, value, vsize) :: inserts) := by
  have hfind := h.trieFindInternal_eq key
  cases hw : walk trie.nodes trie.root key.val with
  | none =>
      obtain ⟨trie', hins, hrep⟩ := h.trieInsert key value vsize copy
      refine ⟨trie', ⟨missingNodes inserts key, none, none⟩, ?_, rfl, ?_, hrep⟩
      · rw [Trie.trieFindAndInsert, hfind, hw]
        simp [hins]
      · exact (h.lastInsert_of_walk_none hw).symm
  | some node =>
      obtain ⟨n, hn⟩ := h.shape.exists_of_walk hw
      obtain ⟨trie', ptr, hset, hptr, hshape, hwalk, hval⟩ :=
        h.shape.trieNodeSetValue_spec hw (some value) copy (fun _ => rfl) vsize
      have hmissing : missingNodes inserts key = 0 :=
        h.missingNodes_of_walk (by rw [hw]; rfl)
      refine ⟨trie', ⟨0, n.value, some n.vsize⟩, ?_, hmissing.symm, h.readValue_eq hw hn, ?_⟩
      · rw [Trie.trieFindAndInsert, hfind, hw]
        simp [hn, hset]
      · refine h.cons hshape hptr ?_ hval
        intro q
        rw [hwalk q]
        constructor
        · exact Or.inl
        · rintro (hq | hq)
          · exact hq
          · obtain ⟨x, hx⟩ := walk_initial hq hw
            rw [hx]
            rfl

theorem trieFind (h : Represents trie inserts) (key : Key) :
    ∃ r, trieFind trie key.val = some r ∧ readValue r.1 r.2 = lastInsert inserts key := by
  have hfind := h.trieFindInternal_eq key
  cases hw : walk trie.nodes trie.root key.val with
  | none =>
      refine ⟨(none, none), ?_, (h.lastInsert_of_walk_none hw).symm⟩
      simp [Trie.trieFind, hfind, hw]
  | some node =>
      obtain ⟨n, hn⟩ := h.shape.exists_of_walk hw
      refine ⟨(n.value, some n.vsize), ?_, h.readValue_eq hw hn⟩
      simp [Trie.trieFind, hfind, hw, hn]

end Represents

theorem mapStep_refines (trie : Trie V) (inserts : Inserts V) (op : MapOp V)
    (h : Represents trie inserts) :
    ∃ trie', mapStep trie op = some (trie', (mapRef inserts op).2) ∧
      Represents trie' (mapRef inserts op).1 := by
  cases op with
  | insert key value vsize copy =>
      obtain ⟨trie', hins, hrep⟩ := h.trieInsert key value vsize copy
      exact ⟨trie', by simp [mapStep, hins, mapRef], hrep⟩
  | findAndInsert key value vsize copy =>
      obtain ⟨trie', r, hins, hnew, hprev, hrep⟩ := h.trieFindAndInsert key value vsize copy
      exact ⟨trie', by simp [mapStep, hins, mapRef, hnew, hprev], hrep⟩
  | find key =>
      obtain ⟨r, hfind, hr⟩ := h.trieFind key
      exact ⟨trie, by simp [mapStep, hfind, mapRef, hr], h⟩

/-- Every run of inserts and searches answers as the reference does: a search
returns the value and the size of the last insert for exactly its key, and an
insert creates the nodes behind the longest prefix that is represented. -/
theorem run_answers_as_map (freeValueCb : Bool) (ops : List (MapOp V)) :
    ∃ trie, runSteps mapStep (trieCreate freeValueCb) ops =
      some (trie, (refRun mapRef [] ops).2) := by
  obtain ⟨trie, hrun, -⟩ := runSteps_refines
    (fun trie inserts op h (_ : True) => mapStep_refines trie inserts op h) ops _ _
    (represents_trieCreate freeValueCb) (stepsMeet_of_forall (fun _ _ => trivial) ops _)
  exact ⟨trie, hrun⟩

end Trie
end LibHL
