import LibHL.Trie.ByteKeys

/-!
# The indices into the array of children

The array of children has 256 entries, and it is indexed with a plain `char`, which is
signed: from a key directly, or from the field `pidx` of a node.  The lists below are the
indices in the order in which a call uses them.  Behind an index outside the array, and behind
a node that has been freed, nothing is known of what a search reads; an insert uses each byte
of its key in any case.
-/

namespace LibHL
namespace Trie

variable {V : Type}

/-- `(int)c` of a plain `char`. -/
def charInt (c : UInt8) : ℤ := if c < 128 then c.toNat else (c.toNat : ℤ) - 256

/-- The child that a byte of a key leads to, if the node is there and the index in the array. -/
def followed (nodes : Heap (TrieNode V)) (node : Addr) (c : UInt8) : Option Addr :=
  (nodes node).bind fun n => (childIndex c).bind n.child

/-- The indices that `trie_find_internal`, and the first loop of `trie_insert`, use from a
node on, which may have been freed. -/
def followIndices (nodes : Heap (TrieNode V)) : Addr → List UInt8 → List ℤ
  | _, [] => []
  | node, c :: key =>
      charInt c ::
        match followed nodes node c with
        | none => []
        | some tmp => followIndices nodes tmp key

/-- What is left of the key when the first loop of `trie_insert` ends, or meets what is not
known. -/
def leftKey (nodes : Heap (TrieNode V)) : Addr → List UInt8 → List UInt8
  | _, [] => []
  | node, c :: key =>
      match followed nodes node c with
      | none => c :: key
      | some tmp => leftKey nodes tmp key

/-- The indices that `trie_find` uses. -/
def findIndices (trie : Trie V) (key : List UInt8) : List ℤ :=
  followIndices trie.nodes trie.root key

/-- The indices that `trie_insert` uses: its loops use one for each byte that is left. -/
def insertIndices (trie : Trie V) (key : List UInt8) : List ℤ :=
  followIndices trie.nodes trie.root key ++ (leftKey trie.nodes trie.root key).map charInt

/-- The indices of the loop of `trie_node_destroy` over the children, with those of the
recursive call as a parameter. -/
def childrenIndices (indices : Trie V → Addr → List ℤ)
    (destroy : Trie V → Addr → Option (Trie V)) (node : Addr) :
    Trie V → List UInt8 → List ℤ
  | _, [] => []
  | trie, i :: is =>
      match trie.nodes node with
      | none => []
      | some n =>
          match n.child i with
          | none => (i.toNat : ℤ) :: childrenIndices indices destroy node trie is
          | some c =>
              match trie.nodes.modify c fun m => { m with parent := none } with
              | none => [(i.toNat : ℤ)]
              | some nodes =>
                  let trie := { trie with nodes := nodes }
                  (i.toNat : ℤ) :: indices trie c ++
                    match (destroy trie c).bind fun trie => clearChild trie (some node) i with
                    | none => []
                    | some trie => childrenIndices indices destroy node trie is

/-- The indices that `trie_node_destroy` uses: `pidx` if a parent is left, and those of the
loop.  The `pidx` of a node that has been freed is not known. -/
def destroyIndices (freeValueCb : Bool) : ℕ → Trie V → Addr → List ℤ
  | 0, _, _ => []
  | fuel + 1, trie, node =>
      match trie.nodes node with
      | none => []
      | some n =>
          match freeEmptyParents trie.nodes.brk trie n.parent n.pidx with
          | none => []
          | some r =>
              (r.2.1.toList.map fun _ => charInt r.2.2) ++
                match clearChild r.1 r.2.1 r.2.2 with
                | none => []
                | some trie =>
                    childrenIndices (destroyIndices freeValueCb fuel)
                      (trieNodeDestroy freeValueCb fuel) node trie childIndices

/-- The indices that `trie_remove` uses. -/
def removeIndices (trie : Trie V) (key : List UInt8) (wantsValue : Bool) : List ℤ :=
  match trieFindInternal trie key with
  | some (some node) =>
      findIndices trie key ++
        destroyIndices (if wantsValue then false else trie.freeValueCb) trie.nodes.brk trie node
  | _ => findIndices trie key

/-- The entries of the array have the indices 0 to 255. -/
def InArray (indices : List ℤ) : Prop := ∀ i ∈ indices, 0 ≤ i ∧ i ≤ 255

instance decidableInArray (indices : List ℤ) : Decidable (InArray indices) :=
  List.decidableBAll (fun i => 0 ≤ i ∧ i ≤ 255) indices

/-- All accesses to arrays of children that the calls with a key make are in range. -/
def IndicesInArray (trie : Trie V) (key : List UInt8) : Prop :=
  InArray (insertIndices trie key) ∧ InArray (findIndices trie key) ∧
    ∀ wantsValue, InArray (removeIndices trie key wantsValue)

/-! ## One index -/

theorem charInt_inArray {c : UInt8} : 0 ≤ charInt c ∧ charInt c ≤ 255 ↔ c < 128 := by
  have hbyte := c.toNat_lt
  have hlt : c < 128 ↔ c.toNat < 128 := UInt8.lt_iff_toNat_lt
  rw [charInt]
  by_cases hc : c < 128
  · rw [if_pos hc]
    refine ⟨fun _ => hc, fun _ => ⟨Int.natCast_nonneg _, ?_⟩⟩
    omega
  · rw [if_neg hc]
    rw [hlt] at hc ⊢
    constructor
    · intro h
      omega
    · intro h
      exact absurd h hc

theorem toNat_inArray (i : UInt8) : 0 ≤ (i.toNat : ℤ) ∧ (i.toNat : ℤ) ≤ 255 := by
  have hbyte := i.toNat_lt
  omega

theorem inArray_nil : InArray [] := fun _ hi => absurd hi List.not_mem_nil

theorem inArray_cons {i : ℤ} {is : List ℤ} :
    InArray (i :: is) ↔ (0 ≤ i ∧ i ≤ 255) ∧ InArray is := List.forall_mem_cons

theorem inArray_append {is js : List ℤ} : InArray (is ++ js) ↔ InArray is ∧ InArray js :=
  List.forall_mem_append

theorem inArray_map_charInt {key : List UInt8} : InArray (key.map charInt) ↔ Low key := by
  constructor
  · intro h c hc
    exact charInt_inArray.mp (h _ (List.mem_map_of_mem hc))
  · intro h i hi
    obtain ⟨c, hc, rfl⟩ := List.mem_map.mp hi
    exact charInt_inArray.mpr (h c hc)

/-! ## Following a key -/

/-- The bytes that a search comes to are small. -/
def ReachedLow (nodes : Heap (TrieNode V)) (a : Addr) (key : List UInt8) : Prop :=
  ∀ p c, p ++ [c] <+: key → (walk nodes a p).isSome → c < 128

section Follow

variable {nodes : Heap (TrieNode V)} {a b : Addr} {c : UInt8} {key : List UInt8}

theorem followed_eq (nodes : Heap (TrieNode V)) (a : Addr) (c : UInt8) :
    followed nodes a c = if c < 128 then childOf nodes a c else none := by
  rw [followed, childOf, childIndex]
  by_cases hc : c < 128
  · rw [if_pos hc, if_pos hc]
    rfl
  · rw [if_neg hc, if_neg hc]
    cases nodes a <;> rfl

theorem followIndices_of_none (h : followed nodes a c = none) (key : List UInt8) :
    followIndices nodes a (c :: key) = [charInt c] := by
  rw [followIndices, h]

theorem followIndices_of_some (h : followed nodes a c = some b) (key : List UInt8) :
    followIndices nodes a (c :: key) = charInt c :: followIndices nodes b key := by
  rw [followIndices, h]

theorem leftKey_of_none (h : followed nodes a c = none) (key : List UInt8) :
    leftKey nodes a (c :: key) = c :: key := by
  rw [leftKey, h]

theorem leftKey_of_some (h : followed nodes a c = some b) (key : List UInt8) :
    leftKey nodes a (c :: key) = leftKey nodes b key := by
  rw [leftKey, h]

/-- Where the first loop of `trie_insert` ends, that is what is left. -/
theorem leftKey_of_followKey : ∀ (key : List UInt8) {a : Addr} {r : Addr × List UInt8},
    followKey nodes a key = some r → leftKey nodes a key = r.2 := by
  intro key
  induction key with
  | nil =>
      intro a r hrun
      cases hrun
      rfl
  | cons c key ih =>
      intro a r hrun
      obtain ⟨n, hn, hrun⟩ := Option.bind_eq_some_iff.mp hrun
      obtain ⟨i, hi, hrun⟩ := Option.bind_eq_some_iff.mp hrun
      have hfollowed : followed nodes a c = n.child i := by
        rw [followed, hn, Option.bind_some, hi, Option.bind_some]
      cases hchild : n.child i with
      | none =>
          simp only [hchild] at hrun
          cases hrun
          exact leftKey_of_none (hfollowed.trans hchild) key
      | some tmp =>
          simp only [hchild] at hrun
          rw [leftKey_of_some (hfollowed.trans hchild) key, ih hrun]

theorem reachedLow_cons : ReachedLow nodes a (c :: key) ↔
    c < 128 ∧ ∀ b, childOf nodes a c = some b → ReachedLow nodes b key := by
  constructor
  · intro h
    refine ⟨h [] c (by simp) rfl, ?_⟩
    intro b hb p d hp hx
    refine h (c :: p) d ?_ ?_
    · rw [List.cons_append]
      exact List.cons_prefix_cons.mpr ⟨rfl, hp⟩
    · rwa [walk_cons, hb]
  · rintro ⟨hfirst, hrest⟩ p d hp hx
    cases p with
    | nil =>
        obtain ⟨rfl, -⟩ := List.cons_prefix_cons.mp hp
        exact hfirst
    | cons e p =>
        obtain ⟨rfl, hpre⟩ := List.cons_prefix_cons.mp hp
        obtain ⟨x, hx⟩ := Option.isSome_iff_exists.mp hx
        obtain ⟨b, hb, hx⟩ := Option.bind_eq_some_iff.mp hx
        exact hrest b hb p d hpre (Option.isSome_iff_exists.mpr ⟨x, hx⟩)

theorem followIndices_inArray_iff : ∀ (key : List UInt8) (a : Addr),
    InArray (followIndices nodes a key) ↔ ReachedLow nodes a key := by
  intro key
  induction key with
  | nil =>
      intro a
      refine ⟨fun _ p c hp => ?_, fun _ => inArray_nil⟩
      simp at hp
  | cons c key ih =>
      intro a
      rw [reachedLow_cons]
      by_cases hc : c < 128
      · have hfollowed := followed_eq nodes a c
        rw [if_pos hc] at hfollowed
        rw [and_iff_right hc]
        cases hchild : childOf nodes a c with
        | none =>
            rw [followIndices_of_none (hfollowed.trans hchild), inArray_cons]
            refine ⟨fun _ b hb => ?_, fun _ => ⟨charInt_inArray.mpr hc, inArray_nil⟩⟩
            cases hb
        | some b =>
            rw [followIndices_of_some (hfollowed.trans hchild), inArray_cons, charInt_inArray,
              and_iff_right hc, ih b]
            refine ⟨fun h x hx => ?_, fun h => h b rfl⟩
            cases hx
            exact h
      · have hfollowed := followed_eq nodes a c
        rw [if_neg hc] at hfollowed
        rw [followIndices_of_none hfollowed, inArray_cons, charInt_inArray]
        exact ⟨fun h => absurd h.1 hc, fun h => absurd h.1 hc⟩

/-- Every byte of the key is used by one of the two loops. -/
theorem insert_inArray_iff : ∀ (key : List UInt8) (a : Addr),
    InArray (followIndices nodes a key ++ (leftKey nodes a key).map charInt) ↔ Low key := by
  intro key
  induction key with
  | nil => exact fun _ => ⟨fun _ c hc => absurd hc List.not_mem_nil, fun _ => inArray_nil⟩
  | cons c key ih =>
      intro a
      have hcons : Low (c :: key) ↔ c < 128 ∧ Low key := List.forall_mem_cons
      cases hfollowed : followed nodes a c with
      | none =>
          rw [followIndices_of_none hfollowed, leftKey_of_none hfollowed, inArray_append,
            inArray_map_charInt, inArray_cons, charInt_inArray, hcons]
          exact ⟨fun h => h.2, fun h => ⟨⟨h.1, inArray_nil⟩, h⟩⟩
      | some b =>
          rw [followIndices_of_some hfollowed, leftKey_of_some hfollowed, List.cons_append,
            inArray_cons, charInt_inArray, ih b, hcons]

theorem Low.reachedLow (h : Low key) (nodes : Heap (TrieNode V)) (a : Addr) :
    ReachedLow nodes a key := by
  intro p c hp _
  exact h c (hp.subset (List.mem_append_right p (List.mem_singleton.mpr rfl)))

end Follow

/-! ## Destroying nodes -/

section Destroy

variable {cb : Bool}

/-- The loop over the children uses its own indices, and hands on nodes without a parent. -/
theorem childrenIndices_inArray {indices : Trie V → Addr → List ℤ}
    (hindices : ∀ trie c m, trie.nodes c = some m → m.parent = none → InArray (indices trie c))
    (destroy : Trie V → Addr → Option (Trie V)) (node : Addr) :
    ∀ (is : List UInt8) (trie : Trie V),
      InArray (childrenIndices indices destroy node trie is) := by
  intro is
  induction is with
  | nil => exact fun _ => inArray_nil
  | cons i is ih =>
      intro trie
      have hi := toNat_inArray i
      rw [childrenIndices]
      cases hn : trie.nodes node with
      | none => exact inArray_nil
      | some n =>
          dsimp only
          cases hc : n.child i with
          | none => exact inArray_cons.mpr ⟨hi, ih trie⟩
          | some c =>
              dsimp only
              cases hmod : trie.nodes.modify c fun m => { m with parent := none } with
              | none => exact inArray_cons.mpr ⟨hi, inArray_nil⟩
              | some nodes =>
                  dsimp only
                  obtain ⟨m, hm, rfl⟩ := Option.map_eq_some_iff.mp hmod
                  have hbelow := hindices { trie with nodes := trie.nodes.put c { m with parent := none } }
                    c _ (Heap.put_self hm) rfl
                  refine inArray_append.mpr ⟨inArray_cons.mpr ⟨hi, hbelow⟩, ?_⟩
                  split
                  · exact inArray_nil
                  · exact ih _

theorem destroyIndices_orphan : ∀ (fuel : ℕ) (trie : Trie V) (a : Addr) (n : TrieNode V),
    trie.nodes a = some n → n.parent = none → InArray (destroyIndices cb fuel trie a) := by
  intro fuel
  induction fuel with
  | zero => exact fun _ _ _ _ _ => inArray_nil
  | succ fuel ih =>
      intro trie a n hn hpar
      have hparents : freeEmptyParents trie.nodes.brk trie n.parent n.pidx =
          some (trie, none, n.pidx) := by
        rw [hpar]
        cases trie.nodes.brk <;> rfl
      rw [destroyIndices, hn]
      dsimp only
      rw [hparents]
      exact childrenIndices_inArray ih _ a childIndices trie

/-- The index `pidx` of a node that is destroyed, or of an ancestor, is one that leads to a
node. -/
theorem Shape.destroyIndices_inArray {trie : Trie V} (h : Shape trie.nodes trie.root)
    {key : List UInt8} {a : Addr} (hw : walk trie.nodes trie.root key = some a) (fuel : ℕ) :
    InArray (destroyIndices cb fuel trie a) := by
  obtain ⟨n, hn⟩ := h.exists_of_walk hw
  rcases List.eq_nil_or_concat' key with rfl | ⟨p, c, rfl⟩
  · cases hw
    obtain ⟨r, hr, hpar⟩ := h.root
    exact destroyIndices_orphan fuel trie trie.root r hr hpar
  · cases fuel with
    | zero => exact inArray_nil
    | succ fuel =>
        obtain ⟨x, hx, hxa, hpar, hidx⟩ := h.parent_of_walk hw hn
        have hxlt : x < trie.nodes.brk :=
          (h.lt_of_childOf hxa).2.trans (Heap.lt_brk_of_eq_some hn)
        obtain ⟨trie₁, top, t, y, heq, -, hy, -, htop, -⟩ :=
          h.freeEmptyParents_spec trie.nodes.brk (c := c) hx (by rw [hxa]; rfl) hxlt rfl
            fun _ _ _ _ => rfl
        obtain ⟨z, hz⟩ := walk_initial htop hw
        rw [walk_snoc_of_walk hy] at hz
        rw [destroyIndices, hn]
        dsimp only
        rw [hpar, hidx, heq]
        refine inArray_append.mpr ⟨?_, ?_⟩
        · exact inArray_cons.mpr ⟨charInt_inArray.mpr (h.lt_of_childOf hz).1, inArray_nil⟩
        · dsimp only
          split
          · exact inArray_nil
          · exact childrenIndices_inArray (destroyIndices_orphan fuel) _ a childIndices _

end Destroy

/-! ## The calls -/

section Calls

variable {trie : Trie V} {key : List UInt8}

/-- What `trie_remove` uses beyond the search for the node is in range. -/
theorem removeIndices_inArray_iff
    (hdestroy : ∀ a cb, trieFindInternal trie key = some (some a) →
      InArray (destroyIndices cb trie.nodes.brk trie a)) (wantsValue : Bool) :
    InArray (removeIndices trie key wantsValue) ↔ InArray (findIndices trie key) := by
  rw [removeIndices]
  split
  · rename_i a hfind
    rw [inArray_append]
    exact and_iff_left (hdestroy a _ hfind)
  · exact Iff.rfl

theorem ShapeOrDestroyed.destroyIndices_inArray (h : ShapeOrDestroyed trie) (a : Addr) (cb : Bool)
    (hfind : trieFindInternal trie key = some (some a)) :
    InArray (destroyIndices cb trie.nodes.brk trie a) := by
  rcases h with h | h
  · exact h.destroyIndices_inArray (walk_of_findFrom key hfind) _
  · rcases findFrom_of_root_none h key with hnone | hroot
    · rw [hnone] at hfind
      cases hfind
    · rw [hroot] at hfind
      cases hfind
      cases trie.nodes.brk with
      | zero => exact inArray_nil
      | succ fuel =>
          rw [destroyIndices, h]
          exact inArray_nil

end Calls

/-- In every reachable trie, an insert stays inside the arrays of children exactly if all bytes
of the key are small, a search and a removal exactly if those are that they come to. -/
theorem indicesInArray_iff_low (freeValueCb : Bool) (ops : List (AnyOp V)) (trie : Trie V)
    (os : List Unit)
    (hrun : runSteps anyStep (trieCreate freeValueCb) ops = some (trie, os)) (key : CString) :
    (IndicesInArray trie key.val ↔ Low key.val) ∧
      (InArray (insertIndices trie key.val) ↔ Low key.val) ∧
      (InArray (findIndices trie key.val) ↔ ReachedLow trie.nodes trie.root key.val) ∧
      ∀ wantsValue, InArray (removeIndices trie key.val wantsValue) ↔
        ReachedLow trie.nodes trie.root key.val := by
  have hinsert : InArray (insertIndices trie key.val) ↔ Low key.val :=
    insert_inArray_iff key.val trie.root
  have hfind : InArray (findIndices trie key.val) ↔ ReachedLow trie.nodes trie.root key.val :=
    followIndices_inArray_iff key.val trie.root
  have hremove : ∀ wantsValue, InArray (removeIndices trie key.val wantsValue) ↔
      ReachedLow trie.nodes trie.root key.val := fun wantsValue =>
    (removeIndices_inArray_iff (shapeOrDestroyed_of_any hrun).destroyIndices_inArray
      wantsValue).trans hfind
  refine ⟨⟨fun hall => hinsert.mp hall.1, fun hlow => ⟨hinsert.mpr hlow, ?_, ?_⟩⟩, hinsert, hfind,
    hremove⟩
  · exact hfind.mpr (hlow.reachedLow trie.nodes trie.root)
  · exact fun wantsValue => (hremove wantsValue).mpr (hlow.reachedLow trie.nodes trie.root)

/-- The two bytes of `é` in UTF-8. -/
def stringAccent : CString := ⟨[195, 169], by simp⟩

/-- An insert of this key into a new trie starts at the index -61. -/
theorem accent_leaves_array :
    ¬ ∀ (freeValueCb : Bool) (ops : List (AnyOp ℕ)) (trie : Trie ℕ) (os : List Unit),
      runSteps anyStep (trieCreate freeValueCb) ops = some (trie, os) →
      ∀ key : CString, IndicesInArray trie key.val := by
  intro hall
  have hinsert := (hall false [] _ _ (runSteps_nil _ _) stringAccent).1
  have hnot : ¬ InArray (insertIndices (trieCreate false : Trie ℕ) stringAccent.val) := by
    decide
  exact hnot hinsert

/-- In the trie that has `TEST`, an insert of `é` leaves the array and so does a search; the key
`TE` is harmless for all calls. -/
theorem indicesInArray_iff_onlyTEST :
    IndicesInArray onlyTESTTrie stringTE.val ∧
      ¬ InArray (insertIndices onlyTESTTrie stringAccent.val) ∧
      ¬ InArray (findIndices onlyTESTTrie stringAccent.val) := by
  obtain ⟨hall, -⟩ := indicesInArray_iff_low false onlyTEST onlyTESTTrie _ onlyTESTTrie_run stringTE
  obtain ⟨-, hinsert, hfind, -⟩ :=
    indicesInArray_iff_low false onlyTEST onlyTESTTrie _ onlyTESTTrie_run stringAccent
  refine ⟨hall.mpr (by decide), fun h => absurd (hinsert.mp h) (by decide), fun h => ?_⟩
  exact absurd (hfind.mp h [] 195 ⟨[169], rfl⟩ rfl) (by decide)

end Trie
end LibHL
