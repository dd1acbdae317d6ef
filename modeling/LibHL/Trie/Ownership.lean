import LibHL.Trie.Release
import LibHL.Trie.Removal

/-!
# Who owns the values of a trie

A value that `trie_remove` or `trie_find_and_insert` hands to the caller may be released
in the same call: a copy always is, and `trie_find_and_insert` also passes other values to
the callback.  In a run without such calls every value is released at most once, and none
that was handed out.
-/

namespace LibHL
namespace Trie

variable {V : Type}

/-! ## The calls -/

/-- The value arguments of an insert; what is to be copied is not null. -/
structure InsertArgs (V : Type) where
  value : Option V
  vsize : ℕ
  copy : Bool
  toCopy : copy = true → value.isSome

/-- The calls that change a trie; the flags say whether the caller passed a pointer for
the previous or the removed value. -/
inductive OwnerOp (V : Type) where
  | insert (key : Key) (args : InsertArgs V)
  | findAndInsert (key : Key) (args : InsertArgs V) (wantsPrev : Bool)
  | findOrInsert (key : Key) (args : InsertArgs V)
  | remove (key : Key) (wantsValue : Bool)

/-- A call, with the value it hands over to the caller. -/
def ownerStep (trie : Trie V) : OwnerOp V → Option (Trie V × Option (ValuePtr V))
  | .insert key args =>
      (trieInsert trie key.val args.value args.vsize args.copy).map fun r => (r.1, none)
  | .findAndInsert key args wantsPrev =>
      (trieFindAndInsert trie key.val args.value args.vsize args.copy).map fun r =>
        (r.1, if wantsPrev then r.2.prevValue else none)
  | .findOrInsert key args =>
      (trieFindOrInsert trie key.val args.value args.vsize args.copy).map fun r => (r.1, none)
  | .remove key wantsValue =>
      (trieRemove trie key.val wantsValue).map fun r => (r.1, r.2.value)

/-- The pointer that a call passes for the trie to keep, if it is not copied. -/
def OwnerOp.givenPtr : OwnerOp V → Option V
  | .insert _ args | .findAndInsert _ args _ | .findOrInsert _ args =>
      if args.copy then none else args.value
  | .remove _ _ => none

/-- The node of a key. -/
def nodeAt (trie : Trie V) (key : Key) : Option (TrieNode V) :=
  (trieFindInternal trie key.val).join.bind trie.nodes

/-- The call does not release the value it hands out: a value handed out by a removal is
not a copy, and one that is replaced is neither a copy nor is there a callback.  The root
stays. -/
def LeavesCleanly (trie : Trie V) : OwnerOp V → Prop
  | .findAndInsert key _ wantsPrev => wantsPrev = true → ∀ n ∈ nodeAt trie key,
      n.value = none ∨ n.isCopy = false ∧ trie.freeValueCb = false
  | .remove key wantsValue => key.val ≠ [] ∧ (wantsValue = true → ∀ n ∈ nodeAt trie key,
      n.value = none ∨ n.isCopy = false)
  | _ => True

instance decidableLeavesCleanly [DecidableEq V] (trie : Trie V) :
    ∀ op, Decidable (LeavesCleanly trie op)
  | .insert .. => isTrue trivial
  | .findAndInsert key _ wantsPrev =>
      inferInstanceAs (Decidable (wantsPrev = true → ∀ n ∈ nodeAt trie key,
        n.value = none ∨ n.isCopy = false ∧ trie.freeValueCb = false))
  | .findOrInsert .. => isTrue trivial
  | .remove key wantsValue =>
      inferInstanceAs (Decidable (key.val ≠ [] ∧ (wantsValue = true → ∀ n ∈ nodeAt trie key,
        n.value = none ∨ n.isCopy = false)))

theorem leaving_eq_none_iff {n : TrieNode V} {cb : Bool} :
    leaving n cb = none ↔ n.value = none ∨ n.isCopy = false ∧ cb = false := by
  cases hcopy : n.isCopy <;> cases cb <;> simp [leaving, hcopy]

theorem Shape.nodeAt_eq {trie : Trie V} (h : Shape trie.nodes trie.root) (key : Key) :
    nodeAt trie key = (walk trie.nodes trie.root key.val).bind trie.nodes := by
  rw [nodeAt, h.trieFindInternal_eq key.property]
  rfl

/-! ## The books of one call -/

/-- A pointer that a call stores and that was not there before. -/
def IsFresh (trie : Trie V) (op : OwnerOp V) (trie' : Trie V) : ValuePtr V → Prop
  | .given v => op.givenPtr = some v
  | .copied block _ => block = trie.blocks ∧ trie.blocks < trie'.blocks

/-- The books of a call that stored `fresh`, handed out `handed` and released `both` although
it is handed out. -/
structure Trades (trie : Trie V) (op : OwnerOp V) (trie' : Trie V)
    (handed fresh both : Option (ValuePtr V)) : Prop where
  accounts : accounted trie' + owned handed ≤ accounted trie + owned fresh + owned both
  isFresh : ∀ p, fresh = some p → IsFresh trie op trie' p
  released : ∀ p, both = some p → handed = some p ∧ p ∈ released trie'
  clean : both = none ↔ LeavesCleanly trie op
  blocks : trie.blocks ≤ trie'.blocks

section Calls

variable {trie trie' : Trie V} {op : OwnerOp V}

theorem isFresh_storedPtr {args : InsertArgs V}
    (hgiven : op.givenPtr = if args.copy then none else args.value)
    (hblocks : trie'.blocks = trie.blocks + if args.copy then 1 else 0) :
    ∀ p, storedPtr trie args.value args.copy = some p → IsFresh trie op trie' p := by
  intro p hp
  obtain ⟨v, hv, rfl⟩ := Option.map_eq_some_iff.mp hp
  cases hcopy : args.copy with
  | true =>
      rw [hcopy, if_pos rfl] at hblocks
      rw [if_pos rfl]
      exact ⟨rfl, hblocks ▸ Nat.lt_succ_self _⟩
  | false =>
      rw [if_neg Bool.false_ne_true, IsFresh, hgiven, hcopy]
      exact hv

theorem trieInsert_accounts {key : List UInt8} {value : Option V} {vsize k : ℕ} {copy : Bool}
    (hrun : trieInsert trie key value vsize copy = some (trie', k)) :
    accounted trie' ≤ accounted trie + owned (storedPtr trie value copy) ∧
      trie'.blocks = trie.blocks + if copy then 1 else 0 := by
  obtain ⟨⟨a, rest⟩, -, hrun⟩ := Option.bind_eq_some_iff.mp hrun
  obtain ⟨⟨nodes, b, newNodes⟩, hext, hrun⟩ := Option.bind_eq_some_iff.mp hrun
  obtain ⟨trie₂, hset, heq⟩ := Option.bind_eq_some_iff.mp hrun
  cases heq
  obtain ⟨n, hn, -⟩ := Option.bind_eq_some_iff.mp hset
  obtain ⟨haccounts, -, hblocks⟩ := trieNodeSetValue_accounts hn hset
  refine ⟨?_, hblocks⟩
  have hsame : held nodes = held trie.nodes := extendKey_held rest hext
  refine le_of_add_le_add_right (a := owned n.value) ?_
  rw [haccounts]
  show held nodes + released trie + owned (leaving n trie.freeValueCb) +
    owned (storedPtr trie value copy) ≤ _
  rw [hsame, add_right_comm, accounted]
  exact add_le_add_right (owned_leaving_le n trie.freeValueCb) _

/-- An insert on behalf of a call that hands nothing out. -/
theorem Shape.insert_trades (h : Shape trie.nodes trie.root) (op : OwnerOp V) (key : Key)
    (args : InsertArgs V) (hgiven : op.givenPtr = if args.copy then none else args.value)
    (hclean : LeavesCleanly trie op) :
    ∃ trie' k, trieInsert trie key.val args.value args.vsize args.copy = some (trie', k) ∧
      Shape trie'.nodes trie'.root ∧
      Trades trie op trie' none (storedPtr trie args.value args.copy) none := by
  obtain ⟨trie', q, rest, ptr, hrun, -, -, -, -, hshape, -⟩ :=
    h.trieInsert_spec key.property args.value args.copy args.toCopy args.vsize
  obtain ⟨haccounts, hblocks⟩ := trieInsert_accounts hrun
  refine ⟨trie', _, hrun, hshape, ?_⟩
  constructor
  · rw [owned_none, add_zero, add_zero]
    exact haccounts
  · exact isFresh_storedPtr hgiven hblocks
  · exact nofun
  · exact ⟨fun _ => hclean, fun _ => rfl⟩
  · rw [hblocks]
    exact Nat.le_add_right _ _

/-- The books of a call on a trie in shape, which keeps its root. -/
theorem Shape.ownerStep_trades (h : Shape trie.nodes trie.root) (op : OwnerOp V)
    (hroot : ∀ key wantsValue, op = .remove key wantsValue → key.val ≠ []) :
    ∃ trie' handed fresh both, ownerStep trie op = some (trie', handed) ∧
      Shape trie'.nodes trie'.root ∧ Trades trie op trie' handed fresh both := by
  cases op with
  | insert key args =>
      obtain ⟨trie', k, hrun, hshape, htrades⟩ := h.insert_trades (.insert key args) key args rfl
        trivial
      exact ⟨trie', none, _, none, by rw [ownerStep, hrun]; rfl, hshape, htrades⟩
  | findOrInsert key args =>
      have hfind := h.trieFindInternal_eq key.property
      cases hw : walk trie.nodes trie.root key.val with
      | none =>
          obtain ⟨trie', k, hrun, hshape, htrades⟩ := h.insert_trades (.findOrInsert key args) key
            args rfl trivial
          refine ⟨trie', none, _, none, ?_, hshape, htrades⟩
          simp [ownerStep, trieFindOrInsert, hfind, hw, hrun]
      | some node =>
          obtain ⟨n, hn⟩ := h.exists_of_walk hw
          refine ⟨trie, none, none, none, ?_, h, ?_⟩
          · simp [ownerStep, trieFindOrInsert, hfind, hw, hn]
          · refine ⟨?_, nofun, nofun, ⟨fun _ => trivial, fun _ => rfl⟩, le_refl _⟩
            rw [owned_none, add_zero, add_zero]
  | findAndInsert key args wantsPrev =>
      have hfind := h.trieFindInternal_eq key.property
      have hnode := h.nodeAt_eq key
      cases hw : walk trie.nodes trie.root key.val with
      | none =>
          rw [hw] at hnode
          have hclean : LeavesCleanly trie (.findAndInsert key args wantsPrev) := by
            intro _ n hn
            rw [hnode] at hn
            cases hn
          obtain ⟨trie', k, hrun, hshape, htrades⟩ := h.insert_trades _ key args rfl hclean
          refine ⟨trie', none, _, none, ?_, hshape, htrades⟩
          simp [ownerStep, trieFindAndInsert, hfind, hw, hrun]
      | some node =>
          obtain ⟨n, hn⟩ := h.exists_of_walk hw
          rw [hw, Option.bind_some, hn] at hnode
          obtain ⟨trie', ptr, hset, -, hshape, -⟩ :=
            h.trieNodeSetValue_spec hw args.value args.copy args.toCopy args.vsize
          obtain ⟨haccounts, hreleased, hblocks⟩ := trieNodeSetValue_accounts hn hset
          refine ⟨trie', if wantsPrev then n.value else none,
            storedPtr trie args.value args.copy,
            if wantsPrev then leaving n trie.freeValueCb else none, ?_, hshape, ?_⟩
          · simp [ownerStep, trieFindAndInsert, hfind, hw, hn, hset]
          · constructor
            · cases wantsPrev with
              | true =>
                  rw [if_pos rfl, if_pos rfl, haccounts, add_right_comm]
              | false =>
                  rw [if_neg Bool.false_ne_true, if_neg Bool.false_ne_true, owned_none, add_zero,
                    add_zero]
                  refine le_of_add_le_add_right (a := owned n.value) ?_
                  rw [haccounts, add_right_comm]
                  exact add_le_add_right (owned_leaving_le n _) _
            · exact isFresh_storedPtr rfl hblocks
            · intro p hp
              cases wantsPrev with
              | true =>
                  rw [if_pos rfl] at hp ⊢
                  have hmem : p ∈ owned n.value :=
                    Multiset.mem_of_le (owned_leaving_le n trie.freeValueCb) (mem_owned.mpr hp)
                  exact ⟨mem_owned.mp hmem, hreleased p (mem_owned.mpr hp)⟩
              | false => cases hp
            · rw [LeavesCleanly, hnode]
              cases wantsPrev with
              | true =>
                  rw [if_pos rfl, leaving_eq_none_iff]
                  simp
              | false => simp
            · rw [hblocks]
              exact Nat.le_add_right _ _
  | remove key wantsValue =>
      have hne := hroot key wantsValue rfl
      have hfind := h.trieFindInternal_eq key.property
      have hnode := h.nodeAt_eq key
      cases hw : walk trie.nodes trie.root key.val with
      | none =>
          rw [hw] at hnode
          refine ⟨trie, none, none, none, ?_, h, ?_⟩
          · simp [ownerStep, trieRemove, hfind, hw]
          · refine ⟨?_, nofun, nofun, ⟨fun _ => ⟨hne, ?_⟩, fun _ => rfl⟩, le_refl _⟩
            · rw [owned_none, add_zero, add_zero]
            · intro _ n hn
              rw [hnode] at hn
              cases hn
      | some node =>
          obtain ⟨n, hn⟩ := h.exists_of_walk hw
          rw [hw, Option.bind_some, hn] at hnode
          obtain ⟨p, c, hkey⟩ := (List.eq_nil_or_concat' key.val).resolve_left hne
          obtain ⟨trie', heq, hshape, -⟩ := h.trieNodeDestroy_spec (hkey ▸ hw)
            (if wantsValue then false else trie.freeValueCb)
          obtain ⟨haccounts, hreleased⟩ := trieNodeDestroy_accounts hn heq
          have hblocks := (trieNodeDestroy_sheds heq).blocks
          rw [hw] at hfind
          refine ⟨trie', if wantsValue then n.value else none, none,
            if wantsValue then leaving n false else none, ?_, hshape, ?_⟩
          · rw [ownerStep, trieRemove_of_found hfind hn heq]
            rfl
          · constructor
            · rw [owned_none, add_zero]
              cases wantsValue with
              | true =>
                  rw [if_pos rfl, if_pos rfl]
                  exact haccounts
              | false =>
                  rw [if_neg Bool.false_ne_true, if_neg Bool.false_ne_true, owned_none, add_zero,
                    add_zero]
                  exact (trieNodeDestroy_sheds heq).accounts
            · exact nofun
            · intro q hq
              cases wantsValue with
              | true =>
                  rw [if_pos rfl] at hq ⊢
                  have hmem : q ∈ owned n.value :=
                    Multiset.mem_of_le (owned_leaving_le n false) (mem_owned.mpr hq)
                  exact ⟨mem_owned.mp hmem, hreleased q (mem_owned.mpr hq)⟩
              | false => cases hq
            · rw [LeavesCleanly, hnode]
              cases wantsValue with
              | true =>
                  rw [if_pos rfl, leaving_eq_none_iff]
                  simp [hne]
              | false => simp [hne]
            · rw [hblocks]

end Calls

/-! ## The books of a run -/

/-- No value is held, released or handed out twice, and the values that are still to come
are none of these. -/
structure Accounts (trie : Trie V) (handed : Multiset (ValuePtr V)) (pending : List V) : Prop where
  nodup : (accounted trie + handed).Nodup
  given : ∀ v, .given v ∈ accounted trie + handed → v ∉ pending
  copied : ∀ block v, .copied block v ∈ accounted trie + handed → block < trie.blocks

/-- A clean call keeps the books in order. -/
theorem Accounts.step {trie trie' : Trie V} {op : OwnerOp V} {taken : Multiset (ValuePtr V)}
    {handed fresh : Option (ValuePtr V)} {pending : List V}
    (h : Accounts trie taken (op.givenPtr.toList ++ pending))
    (hpending : (op.givenPtr.toList ++ pending).Nodup)
    (htrades : Trades trie op trie' handed fresh none) :
    Accounts trie' (taken + owned handed) pending := by
  have hle : accounted trie' + (taken + owned handed) ≤
      accounted trie + taken + owned fresh := by
    have hcall := add_le_add_left htrades.accounts taken
    rw [owned_none, add_zero] at hcall
    calc accounted trie' + (taken + owned handed)
        = accounted trie' + owned handed + taken := by abel
      _ ≤ accounted trie + owned fresh + taken := hcall
      _ = accounted trie + taken + owned fresh := by abel
  have hcases : ∀ p ∈ accounted trie' + (taken + owned handed),
      p ∈ accounted trie + taken ∨ IsFresh trie op trie' p := by
    intro p hp
    rcases Multiset.mem_add.mp (Multiset.mem_of_le hle hp) with hold | hnew
    · exact Or.inl hold
    · exact Or.inr (htrades.isFresh p (mem_owned.mp hnew))
  constructor
  · refine Multiset.nodup_of_le hle ?_
    refine Multiset.nodup_add.mpr ⟨h.nodup, ?_, ?_⟩
    · cases fresh with
      | none => exact Multiset.nodup_zero
      | some p => exact Multiset.nodup_singleton p
    · rw [Multiset.disjoint_right]
      intro p hnew hold
      have hfresh := htrades.isFresh p (mem_owned.mp hnew)
      cases p with
      | given v =>
          have hgiven : op.givenPtr = some v := hfresh
          exact h.given v hold (by rw [hgiven]; exact List.mem_cons_self)
      | copied block v =>
          have hlt := h.copied block v hold
          rw [hfresh.1] at hlt
          exact absurd hlt (lt_irrefl _)
  · intro v hv hmem
    rcases hcases _ hv with hold | hfresh
    · exact h.given v hold (List.mem_append_right _ hmem)
    · have hgiven : op.givenPtr = some v := hfresh
      rw [hgiven] at hpending
      exact (List.nodup_cons.mp hpending).1 hmem
  · intro block v hv
    rcases hcases _ hv with hold | hfresh
    · exact lt_of_lt_of_le (h.copied block v hold) htrades.blocks
    · rw [hfresh.1]
      exact hfresh.2

/-- In the books of a run, a call that keeps the root releases nothing that it hands out
exactly if it is clean. -/
theorem Accounts.handed_not_released_iff {trie : Trie V} {op : OwnerOp V}
    {taken : Multiset (ValuePtr V)} {pending : List V} (hshape : Shape trie.nodes trie.root)
    (h : Accounts trie taken (op.givenPtr.toList ++ pending))
    (hpending : (op.givenPtr.toList ++ pending).Nodup)
    (hroot : ∀ key wantsValue, op = .remove key wantsValue → key.val ≠ []) :
    ∃ trie' handed, ownerStep trie op = some (trie', handed) ∧
      ((∀ p, handed = some p → p ∉ released trie') ↔ LeavesCleanly trie op) := by
  obtain ⟨trie', handed, fresh, both, hstep, -, htrades⟩ := hshape.ownerStep_trades op hroot
  refine ⟨trie', handed, hstep, ?_⟩
  rw [← htrades.clean]
  constructor
  · intro hnot
    cases hboth : both with
    | none => rfl
    | some p =>
        obtain ⟨hhanded, hreleased⟩ := htrades.released p hboth
        exact absurd hreleased (hnot p hhanded)
  · rintro rfl p rfl hreleased
    have hnodup := (h.step hpending htrades).nodup
    have hdisjoint := (Multiset.nodup_add.mp hnodup).2.2
    have hheld : p ∈ accounted trie' := Multiset.mem_add.mpr (Or.inr hreleased)
    have htaken : p ∈ taken + owned (some p) :=
      Multiset.mem_add.mpr (Or.inr (mem_owned.mpr rfl))
    exact Multiset.disjoint_left.mp hdisjoint hheld htaken

/-- The values that were handed out. -/
def handedOut (outs : List (Option (ValuePtr V))) : Multiset (ValuePtr V) :=
  (outs.filterMap id : Multiset (ValuePtr V))

theorem handedOut_cons (o : Option (ValuePtr V)) (outs : List (Option (ValuePtr V))) :
    handedOut (o :: outs) = owned o + handedOut outs := by
  cases o with
  | none => simp [handedOut]
  | some p => simp [handedOut, List.filterMap_cons_some]

/-- A run of clean calls succeeds and keeps the books in order. -/
theorem Accounts.run : ∀ (ops : List (OwnerOp V)) {trie : Trie V}
    {taken : Multiset (ValuePtr V)}, Shape trie.nodes trie.root →
    Accounts trie taken (ops.filterMap OwnerOp.givenPtr) →
    (ops.filterMap OwnerOp.givenPtr).Nodup → StepsMeet ownerStep LeavesCleanly trie ops →
    ∃ trie' outs, runSteps ownerStep trie ops = some (trie', outs) ∧
      Shape trie'.nodes trie'.root ∧ Accounts trie' (taken + handedOut outs) [] := by
  intro ops
  induction ops with
  | nil =>
      intro trie taken hshape h _ _
      exact ⟨trie, [], rfl, hshape, by simpa [handedOut] using h⟩
  | cons op ops ih =>
      intro trie taken hshape h hnodup hmeet
      have hcons : (op :: ops).filterMap OwnerOp.givenPtr =
          op.givenPtr.toList ++ ops.filterMap OwnerOp.givenPtr := by
        cases hop : op.givenPtr with
        | none => rw [List.filterMap_cons_none hop]; rfl
        | some v => rw [List.filterMap_cons_some hop]; rfl
      rw [hcons] at h hnodup
      have hroot : ∀ key wantsValue, op = .remove key wantsValue → key.val ≠ [] := by
        rintro key wantsValue rfl
        exact hmeet.1.1
      obtain ⟨trie₁, handed, fresh, both, hstep, hshape₁, htrades⟩ :=
        hshape.ownerStep_trades op hroot
      obtain rfl : both = none := htrades.clean.mpr hmeet.1
      obtain ⟨trie', outs, hrun, hshape', h'⟩ := ih hshape₁ (h.step hnodup htrades)
        hnodup.of_append_right (hmeet.2 _ hstep)
      refine ⟨trie', handed :: outs, ?_, hshape', ?_⟩
      · rw [runSteps_cons_of_step hstep, hrun]
        rfl
      · rwa [handedOut_cons, ← add_assoc]

theorem Shape.trieDestroy_eq {trie : Trie V} (h : Shape trie.nodes trie.root) :
    ∃ trie', trieDestroy trie = some trie' := by
  obtain ⟨n, hn, hpar⟩ := h.root
  obtain ⟨trie', heq, -⟩ := h.trieNodeDestroy_orphan trie.freeValueCb trie.nodes.brk
    (p := []) (walk_nil _ _) (Nat.le_add_right _ _) hn (by rw [hn, ← hpar]) fun _ _ _ => rfl
  exact ⟨trie', heq⟩

/-- Nothing was released twice, and nothing that was handed out was released. -/
def ReleasedOnce (trie : Trie V) (outs : List (Option (ValuePtr V))) : Prop :=
  (trie.freed ++ trie.passedToCb).Nodup ∧
    ∀ p, some p ∈ outs → p ∉ trie.freed ++ trie.passedToCb

/-- In every run of clean calls, with pointers that differ, that ends with `trie_destroy`,
every value is released at most once, and no value that was handed out is released. -/
theorem values_released_once (freeValueCb : Bool) (ops : List (OwnerOp V))
    (hdistinct : (ops.filterMap OwnerOp.givenPtr).Nodup)
    (hclean : StepsMeet ownerStep LeavesCleanly (trieCreate freeValueCb) ops) :
    ∃ trie outs trie', runSteps ownerStep (trieCreate freeValueCb) ops = some (trie, outs) ∧
      trieDestroy trie = some trie' ∧ ReleasedOnce trie' outs := by
  have hempty : accounted (trieCreate (V := V) freeValueCb) = 0 := rfl
  have h₀ : Accounts (trieCreate (V := V) freeValueCb) 0
      (ops.filterMap OwnerOp.givenPtr) := by
    constructor
    · rw [hempty, add_zero]
      exact Multiset.nodup_zero
    · intro v hv
      rw [hempty, add_zero] at hv
      exact absurd hv (Multiset.notMem_zero _)
    · intro block v hv
      rw [hempty, add_zero] at hv
      exact absurd hv (Multiset.notMem_zero _)
  obtain ⟨trie, outs, hrun, hshape, h⟩ :=
    Accounts.run ops (shape_trieCreate freeValueCb) h₀ hdistinct hclean
  obtain ⟨trie', hdestroy⟩ := hshape.trieDestroy_eq
  refine ⟨trie, outs, trie', hrun, hdestroy, ?_⟩
  have hle : released trie' + handedOut outs ≤ accounted trie + (0 + handedOut outs) := by
    have hshed := (trieNodeDestroy_sheds hdestroy).accounts
    rw [zero_add]
    exact add_le_add_left ((Multiset.le_add_left _ _).trans hshed) _
  obtain ⟨hreleased, -, hdisjoint⟩ :=
    Multiset.nodup_add.mp (Multiset.nodup_of_le hle h.nodup)
  have hcoe : released trie' = (trie'.freed ++ trie'.passedToCb : List (ValuePtr V)) :=
    Multiset.coe_add _ _
  rw [hcoe] at hreleased hdisjoint
  refine ⟨Multiset.coe_nodup.mp hreleased, ?_⟩
  intro p hp hfree
  have hmem : p ∈ handedOut outs := List.mem_filterMap.mpr ⟨some p, hp, rfl⟩
  exact Multiset.disjoint_left.mp hdisjoint hfree hmem

/-- A value argument that is not copied. -/
def pointer (v : ℕ) : InsertArgs ℕ where
  value := some v
  vsize := 4
  copy := false
  toCopy := nofun

/-- A value argument to copy. -/
def copyOf (v : ℕ) : InsertArgs ℕ where
  value := some v
  vsize := 4
  copy := true
  toCopy := fun _ => rfl

/-- A run with a callback: a value is replaced, a copy is removed, and one value each is
handed out by a removal and left for the end. -/
def cleanRun : List (OwnerOp ℕ) :=
  [.insert keyTE (pointer 1), .insert keyTEST (copyOf 2), .findAndInsert keyTE (pointer 3) false,
    .findOrInsert keyTE (pointer 4), .remove keyTEST false, .remove keyTE true,
    .findAndInsert keyTEST (pointer 5) true]

theorem values_released_once_cleanRun :
    ∃ trie outs trie', runSteps ownerStep (trieCreate true) cleanRun = some (trie, outs) ∧
      trieDestroy trie = some trie' ∧ ReleasedOnce trie' outs :=
  values_released_once true cleanRun (by decide) (by decide +kernel)

/-- A removal that hands out a copy also frees it, and a replacement that hands out a value
also passes it to the callback. -/
theorem handed_value_released : ¬ ∀ (freeValueCb : Bool) (ops : List (OwnerOp ℕ))
    (trie trie' : Trie ℕ) (outs : List (Option (ValuePtr ℕ))),
    (ops.filterMap OwnerOp.givenPtr).Nodup →
    runSteps ownerStep (trieCreate freeValueCb) ops = some (trie, outs) →
    trieDestroy trie = some trie' → ReleasedOnce trie' outs := by
  intro hall
  let ops : List (OwnerOp ℕ) := [.insert keyTE (copyOf 1), .remove keyTE true]
  have hrun : (runSteps ownerStep (trieCreate false) ops).bind (fun r =>
      (trieDestroy r.1).map fun trie' => (r.2, trie'.freed)) =
        some ([none, some (.copied 0 1)], [.copied 0 1]) := by
    decide +kernel
  obtain ⟨⟨trie, outs⟩, hrun, hrest⟩ := Option.bind_eq_some_iff.mp hrun
  obtain ⟨trie', hdestroy, heq⟩ := Option.map_eq_some_iff.mp hrest
  obtain ⟨rfl, hfreed⟩ := Prod.mk.inj heq
  obtain ⟨-, hkept⟩ := hall false ops trie trie' _ (by decide) hrun hdestroy
  refine hkept (.copied 0 1) (by simp) ?_
  rw [hfreed]
  exact List.mem_cons_self

end Trie
end LibHL
