import LibHL.RbTree.ValidRemovals
import LibHL.Support.Run

/-!
# Runs of the red-black tree

The tree is compared with a map from keys to values, in which keys that the comparator calls
equal are one key.  Additions and searches always agree with the map and leave a red-black
tree; removals do exactly if they are of the kinds that leave one.
-/

namespace LibHL
namespace RbTree

open LinkedNode PTree RbtData

variable {V : Type} {c : Comparator (List UInt8)} {tree : Rbt V} {T : PTree (RbtData V)}

/-! ## The map -/

/-- What is stored under every key. -/
abbrev Contents (V : Type) := List UInt8 → Option (Option V)

/-- What a search answers. -/
def refFound : Option (Option V) → RbtAnswer V
  | none => ⟨-1, none⟩
  | some value => ⟨0, some value⟩

/-- What a removal answers. -/
def refRemoved (wantsValue : Bool) : Option (Option V) → RbtAnswer V
  | none => ⟨-1, none⟩
  | some value => ⟨0, if wantsValue = true then some value else none⟩

/-- A call on the map. -/
def refStep (c : Comparator (List UInt8)) (m : Contents V) :
    RbtOp V → Contents V × RbtResult V
  | .add key value =>
      (fun k => if c.cmp key k = 0 then some value else m k,
        .added (if (m key).isSome then 1 else 0))
  | .remove key wantsValue =>
      (fun k => if c.cmp key k = 0 then none else m k, .removed (refRemoved wantsValue (m key)))
  | .find key => (m, .found (refFound (m key)))

/-- A red-black tree that stores what the map does. -/
def Stores (c : Comparator (List UInt8)) (tree : Rbt V) (m : Contents V) : Prop :=
  ∃ T, Valid c tree T ∧ ∀ key, (lookup c RbtData.key T.values key).map RbtData.value = m key

/-- A removal is of a node that may go away. -/
def RemovalFits (c : Comparator (List UInt8)) (tree : Rbt V) : RbtOp V → Prop
  | .remove key _ => ∀ T ∈ readTree tree.nodes tree.nodes.brk tree.root,
      NodeFits true (neighbourSide tree.prevnext) (place c T key).1 (place c T key).2
  | _ => True

theorem removalFits_iff (h : Valid c tree T) (key : List UInt8) (wantsValue : Bool) :
    RemovalFits c tree (.remove key wantsValue) ↔
      NodeFits true (neighbourSide tree.prevnext) (place c T key).1 (place c T key).2 := by
  rw [RemovalFits, h.represents.readTree_eq]
  constructor
  · exact fun hfits => hfits T rfl
  · rintro hfits T' heq
    cases heq
    exact hfits

theorem stores_rbtCreate (c : Comparator (List UInt8)) (freeValueCb : Bool) (prevnext : ℕ) :
    Stores c (rbtCreate freeValueCb prevnext : Rbt V) fun _ => none := by
  refine ⟨.leaf, ⟨represents_rbtCreate freeValueCb prevnext, ?_, List.Pairwise.nil, ?_⟩,
    fun _ => rfl⟩
  · exact fun d hd => absurd hd List.not_mem_nil
  · exact PTree.redBlack_iff.mpr ⟨rfl, 0, coloured_leaf.mpr rfl⟩

/-! ## The calls -/

/-- The entries tell what is stored under a key. -/
theorem lookup_entries (c : Comparator (List UInt8)) (T : PTree (RbtData V)) (key : List UInt8) :
    (lookup c RbtData.key T.values key).map RbtData.value =
      (lookup c Prod.fst (T.values.map entry) key).map fun e => e.2.2 := by
  have hkey (d : RbtData V) : (entry d).1 = d.key := rfl
  rw [lookup_map hkey, Option.map_map]
  rfl

theorem Stores.add [DecidableEq V] {m : Contents V} (h : Stores c tree m) (key : List UInt8)
    (value : Option V) : ∃ tree', stepOp c.cmp tree (.add key value) =
      some (tree', (refStep c m (.add key value)).2) ∧
      Stores c tree' (refStep c m (.add key value)).1 := by
  obtain ⟨T, h, hm⟩ := h
  have hgranted (mem : ℕ → Bool) (hmem : mem 0 = true ∧ mem 1 = true) :=
    rbtAdd_granted c hmem h.represents h.whole h.ordered key value
  obtain ⟨tree', T', hrun, h', hfinish⟩ := hgranted (fun _ => true) ⟨rfl, rfl⟩
  have hentries := hfinish.entries_setKey h.ordered
  have hasc := ordered_iff_entries.mp h.ordered
  have hred := (hfinish.redBlack_iff h.ordered h.redBlack).mpr
    (Or.inr (repairFits_of_plenty (fun _ => rfl) _))
  have hrc : addedRc (place c T key).1 = if (m key).isSome then 1 else 0 := by
    rw [← hm, Option.isSome_map, ← isSome_rootData h.ordered]
    cases (place c T key).1 <;> rfl
  refine ⟨tree', ?_, T', ⟨h', whole_of_setKey hentries h.whole, ?_, hred⟩, fun k => ?_⟩
  · rw [stepOp, hrun, hrc]
    rfl
  · rw [ordered_iff_entries, hentries]
    exact ascending_setKey hasc _
  · rw [lookup_entries, hentries, lookup_setKey hasc]
    by_cases hk : c.cmp (newEntry key value).1 k = 0
    · rw [if_pos hk]
      exact (if_pos hk).symm
    · rw [if_neg hk, ← lookup_entries, hm]
      exact (if_neg hk).symm

theorem Stores.find [DecidableEq V] {m : Contents V} (h : Stores c tree m) (key : List UInt8) :
    ∃ tree', stepOp c.cmp tree (.find key) = some (tree', (refStep c m (.find key)).2) ∧
      Stores c tree' (refStep c m (.find key)).1 := by
  refine ⟨tree, ?_, h⟩
  obtain ⟨T, h, hm⟩ := h
  rw [stepOp, rbtFind_spec c h.represents h.whole h.ordered, refStep, ← hm]
  cases lookup c RbtData.key T.values key <;> rfl

theorem Stores.remove_iff [DecidableEq V] {m : Contents V} (h : Stores c tree m)
    (key : List UInt8) (wantsValue : Bool) :
    RemovalFits c tree (.remove key wantsValue) ↔
      ∃ tree', stepOp c.cmp tree (.remove key wantsValue) =
          some (tree', (refStep c m (.remove key wantsValue)).2) ∧
        Stores c tree' (refStep c m (.remove key wantsValue)).1 := by
  obtain ⟨T, h, hm⟩ := h
  rw [removalFits_iff h]
  constructor
  · intro hfits
    obtain ⟨tree', T', hrun, h', hentries, -⟩ := removesKey_of_nodeFits wantsValue h hfits
    refine ⟨tree', ?_, T', h', fun k => ?_⟩
    · rw [stepOp, hrun, refStep, ← hm]
      cases lookup c RbtData.key T.values key <;> rfl
    · rw [lookup_entries, hentries, lookup_filter]
      by_cases hk : c.cmp key k = 0
      · rw [if_pos hk]
        exact (if_pos hk).symm
      · rw [if_neg hk, ← lookup_entries, hm]
        exact (if_neg hk).symm
  · rintro ⟨tree', hstep, T', h', -⟩
    obtain ⟨r, hrun, heq⟩ := Option.map_eq_some_iff.mp hstep
    obtain rfl : r.1 = tree' := congrArg Prod.fst heq
    exact nodeFits_of_leavesValid wantsValue h ⟨r.1, r.2, T', hrun, h'⟩
      (Or.inl rfl)

/-- Exactly the calls that fit have the answer of the map and leave a red-black tree. -/
theorem stepOp_stores_iff [DecidableEq V] (c : Comparator (List UInt8)) (tree : Rbt V)
    (m : Contents V) (op : RbtOp V) (h : Stores c tree m) :
    RemovalFits c tree op ↔ ∃ tree', stepOp c.cmp tree op = some (tree', (refStep c m op).2) ∧
      Stores c tree' (refStep c m op).1 := by
  cases op with
  | add key value => exact iff_of_true trivial (h.add key value)
  | find key => exact iff_of_true trivial (h.find key)
  | remove key wantsValue => exact h.remove_iff key wantsValue

/-! ## Runs -/

/-- A run is that of a map, with a red-black tree after every call, exactly if each of its
removals is of a node that may go away. -/
theorem run_follows_map_iff [DecidableEq V] (c : Comparator (List UInt8)) (freeValueCb : Bool)
    (prevnext : ℕ) (ops : List (RbtOp V)) :
    RunsAs (stepOp c.cmp) (refStep c) (Stores c) (rbtCreate freeValueCb prevnext)
        (fun _ => none) ops ↔
      StepsMeet (stepOp c.cmp) (RemovalFits c) (rbtCreate freeValueCb prevnext) ops :=
  runsAs_iff_stepsMeet (fun tree m op h => stepOp_stores_iff c tree m op h) ops _ _
    (stores_rbtCreate c freeValueCb prevnext)

instance (c : Comparator (List UInt8)) (tree : Rbt V) (op : RbtOp V) :
    Decidable (RemovalFits c tree op) := by
  cases op with
  | remove key wantsValue => exact inferInstanceAs (Decidable (∀ T ∈ readTree _ _ _, _))
  | add key value => exact isTrue trivial
  | find key => exact isTrue trivial

/-- The root pointer is not updated when the only node goes away. -/
example : ¬ StepsMeet (stepOp lexicographic.cmp) (RemovalFits lexicographic.toComparator)
    (rbtCreate false 0) [.add [5] (some 5), .remove [5] true] := by
  decide

/-- The call is `rbt_remove`. -/
def isRemove : RbtOp V → Bool
  | .remove _ _ => true
  | _ => false

/-- Additions and searches behave like those of a map.  After any number of them, in any
order, the tree is a red-black tree in the order of the keys, and its height is at most twice
the logarithm of the number of keys. -/
theorem adds_build_redBlack [DecidableEq V] (c : Comparator (List UInt8)) (freeValueCb : Bool)
    (prevnext : ℕ) (ops : List (RbtOp V)) (hops : ∀ op ∈ ops, isRemove op = false) :
    ∃ tree T, runSteps (stepOp c.cmp) (rbtCreate freeValueCb prevnext) ops =
        some (tree, (refRun (refStep c) (fun _ => none) ops).2) ∧
      Valid c tree T ∧ T.height ≤ 2 * Nat.log 2 (T.size + 1) ∧
      ∀ key, (lookup c RbtData.key T.values key).map RbtData.value =
        (refRun (refStep c) (fun _ => none) ops).1 key := by
  have hmeet : StepsMeet (stepOp c.cmp) (RemovalFits c) (rbtCreate freeValueCb prevnext) ops := by
    generalize (rbtCreate freeValueCb prevnext : Rbt V) = tree
    induction ops generalizing tree with
    | nil => trivial
    | cons op ops ih =>
        refine ⟨?_, fun r _ => ih (fun o ho => hops o (List.mem_cons_of_mem op ho)) r.1⟩
        have hop := hops op List.mem_cons_self
        cases op with
        | remove key wantsValue => cases hop
        | add key value => trivial
        | find key => trivial
  obtain ⟨tree, hrun, T, h, hm⟩ := runSteps_refines
    (fun tree m op h hfits => (stepOp_stores_iff c tree m op h).mp hfits) ops _ _
    (stores_rbtCreate c freeValueCb prevnext) hmeet
  exact ⟨tree, T, hrun, h, h.redBlack.height_le, hm⟩

theorem adds_build_redBlack_three :
    ∃ tree T, runSteps (stepOp lexicographic.cmp) (rbtCreate false 0)
        [.add [5] (some 5), .add [3] (some 3), .add [9] none, .find [3]] =
        some (tree, (refRun (refStep lexicographic.toComparator) (fun _ => none)
          [.add [5] (some 5), .add [3] (some 3), .add [9] none, .find [3]]).2) ∧
      Valid lexicographic.toComparator tree T ∧ T.height ≤ 2 * Nat.log 2 (T.size + 1) ∧
      ∀ key, (lookup lexicographic.toComparator RbtData.key T.values key).map RbtData.value =
        (refRun (refStep lexicographic.toComparator) (fun _ => none)
          [.add [5] (some 5), .add [3] (some 3), .add [9] none, .find [3]]).1 key :=
  adds_build_redBlack (V := ℕ) lexicographic.toComparator false 0 _ (by decide)

end RbTree
end LibHL
