import LibHL.RbTree.Runs
import LibHL.Support.Holdings

/-!
# The lives of the values of a red-black tree

A value that is added stays in the tree until another one takes its place, its key is removed
or the tree is destroyed, and then is passed to the callback, or to the caller who asks for
it.  Adding the grandparent again after a recolouring releases nothing, since the value of the
node that is replaced is the one that comes back.
-/

namespace LibHL
namespace RbTree

variable {V : Type}

/-! ## The code -/

/-- `rbt_destroy_internal`: the nodes that are left, and what is passed to the callback.  A
null pointer is passed to it, too. -/
def rbtDestroyInternal (freeValueCb : Bool) : ℕ → Heap (RbtNode V) → Option Addr →
    Option (Heap (RbtNode V) × List (Option V))
  | _, nodes, none => some (nodes, [])
  | 0, _, some _ => none
  | fuel + 1, nodes, some node => do
      let n ← nodes node
      let l ← rbtDestroyInternal freeValueCb fuel nodes n.left
      let n ← l.1 node
      let r ← rbtDestroyInternal freeValueCb fuel l.1 n.right
      let n ← r.1 node
      let nodes ← r.1.free node
      some (nodes, l.2 ++ (r.2 ++ if freeValueCb = true then [n.data.value] else []))

/-- `rbt_destroy`.  The bound is one that is never reached. -/
def rbtDestroy (tree : Rbt V) : Option (Rbt V) := do
  let r ← rbtDestroyInternal tree.freeValueCb tree.nodes.brk tree.nodes tree.root
  some { tree with nodes := r.1, root := none, freed := tree.freed ++ r.2 }

/-! ## Destruction -/

open LinkedNode PTree RbtData

/-- A subtree is released node by node, and every value in it is passed to the callback. -/
theorem rbtDestroyInternal_spec (t : PTree (RbtData V)) : ∀ (fuel : ℕ)
    (nodes : Heap (RbtNode V)) (p : Option Addr) (rest : Multiset (Addr × RbtNode V)),
    t.height ≤ fuel → nodes.cells = t.cells p + rest →
    ∃ nodes' freed, rbtDestroyInternal true fuel nodes t.addr = some (nodes', freed) ∧
      nodes'.cells = rest ∧ freed.Perm (t.values.map RbtData.value) := by
  induction t with
  | leaf =>
      intro fuel nodes p rest _ hcells
      refine ⟨nodes, [], ?_, ?_, List.Perm.refl _⟩
      · cases fuel <;> rfl
      · rw [hcells, cells_leaf, zero_add]
  | node l x d r ihl ihr =>
      intro fuel nodes p rest hle hcells
      rw [PTree.height] at hle
      obtain ⟨fuel, rfl⟩ := Nat.exists_eq_add_of_le' (Nat.le_trans (Nat.le_add_left 1 _) hle)
      rw [PTree.cells] at hcells
      have hx := Heap.eq_some_of_cells (hcells.trans (add_assoc _ _ _))
      have hleft : nodes.cells = l.cells (some x) +
          ({(x, ⟨l.addr, r.addr, p, d⟩)} + r.cells (some x) + rest) := by
        rw [hcells]
        abel
      obtain ⟨nodes₁, below, hrun₁, hcells₁, hbelow⟩ := ihl fuel nodes _ _ (by omega) hleft
      have hx₁ := Heap.eq_some_of_cells (hcells₁.trans (add_assoc _ _ _))
      have hright : nodes₁.cells =
          r.cells (some x) + ({(x, ⟨l.addr, r.addr, p, d⟩)} + rest) := by
        rw [hcells₁]
        abel
      obtain ⟨nodes₂, above, hrun₂, hcells₂, habove⟩ := ihr fuel nodes₁ _ _ (by omega) hright
      have hx₂ := Heap.eq_some_of_cells hcells₂
      obtain ⟨nodes₃, hfree, hcells₃⟩ := Heap.free_of_cells hcells₂
      refine ⟨nodes₃, below ++ (above ++ [d.value]), ?_, hcells₃, ?_⟩
      · show rbtDestroyInternal true (fuel + 1) nodes (some x) = _
        simp [rbtDestroyInternal, hx, hrun₁, hx₁, hrun₂, hx₂, hfree]
      · rw [values, List.map_append, List.map_cons]
        exact hbelow.append ((habove.append_right _).trans (List.perm_append_singleton _ _))

/-! ## What the nodes hold -/

/-- The values in the live nodes; a null pointer is no value. -/
def live (tree : Rbt V) : Multiset V := tree.nodes.cells.filterMap fun c => c.2.data.value

/-- What is in the nodes, or has been passed to the callback.  A removal hands a value to a
caller who asks for it. -/
def valueHoldings : Holdings (Rbt V) (RbtOp V) (RbtResult V) V where
  held tree := live tree + (tree.freed.filterMap id : List V)
  brought
    | .add _ value => value.toList
    | _ => 0
  taken
    | .remove _ _, .removed answer => answer.value.join.toList
    | _, _ => 0

variable {c : Comparator (List UInt8)} {tree tree' : Rbt V} {T T' : PTree (RbtData V)}

/-- The value of an entry. -/
def valueOf (e : List UInt8 × ℕ × Option V) : Option V := e.2.2

theorem live_eq (h : Represents tree T) :
    live tree = ((T.values.map entry).filterMap valueOf : List V) := by
  have hcells : (T.cells none).filterMap (fun c => c.2.data.value) =
      ((T.cells none).map fun c => entry c.2.data).filterMap valueOf := by
    rw [Multiset.filterMap_map]
    rfl
  rw [live, h.cells, hcells, map_cells]
  rfl

theorem coe_filterMap_cons (e : List UInt8 × ℕ × Option V) (es : List (List UInt8 × ℕ × Option V)) :
    ((e :: es).filterMap valueOf : Multiset V) =
      (e.2.2.toList : Multiset V) + (es.filterMap valueOf : List V) := by
  rw [List.filterMap_cons, valueOf]
  cases e.2.2 <;> rfl

/-- The value under a key and the values of the other entries. -/
theorem live_split (h : Valid c tree T) (key : List UInt8) :
    live tree =
      (((lookup c Prod.fst (T.values.map entry) key).bind valueOf).toList : Multiset V) +
      (((T.values.map entry).filter fun e => c.cmp e.1 key ≠ 0).filterMap valueOf : List V) := by
  have hperm := perm_lookup (ordered_iff_entries.mp h.ordered) key
  rw [live_eq h.represents, Multiset.coe_eq_coe.mpr (hperm.filterMap valueOf)]
  cases lookup c Prod.fst (T.values.map entry) key with
  | none => exact (zero_add _).symm
  | some e => exact coe_filterMap_cons e _

/-! ## The calls -/

/-- The value that a new node replaces is released, unless it is the new one. -/
theorem freedBy_eq [DecidableEq V] (h : Valid c tree T) (hcb : tree.freeValueCb = true)
    (key : List UInt8) (value : Option V) :
    ((freedBy tree (newData key value) (place c T key).1).filterMap id : Multiset V) =
      (tree.freed.filterMap id : List V) +
        if value = (lookup c Prod.fst (T.values.map entry) key).bind valueOf then 0
        else (((lookup c Prod.fst (T.values.map entry) key).bind valueOf).toList :
          Multiset V) := by
  have hkey (d : RbtData V) : (entry d).1 = d.key := rfl
  have hseek : (place c T key).1.rootData = lookup c RbtData.key T.values key :=
    rootData_seek h.ordered key
  rw [lookup_map hkey, ← hseek]
  cases (place c T key).1 with
  | leaf =>
      show _ = _ + ite _ 0 0
      rw [ite_self, add_zero]
      rfl
  | node l x d r =>
      have hroot : ((PTree.node l x d r).rootData.map entry).bind valueOf = d.value := rfl
      have hnew : (newData key value).value = value := rfl
      rw [hroot, freedBy, hnew]
      by_cases hvalue : value = d.value
      · rw [if_neg fun hne => hne.1 hvalue, if_pos hvalue, add_zero]
      · rw [if_pos ⟨hvalue, hcb⟩, if_neg hvalue, List.filterMap_append, ← Multiset.coe_add]
        cases d.value <;> rfl

theorem rbtAdd_balances [DecidableEq V] (h : Valid c tree T) (hcb : tree.freeValueCb = true)
    (key : List UInt8) (value : Option V) (hfresh : ∀ v ∈ value.toList, v ∉ live tree) :
    ∃ tree' rc T', rbtAdd c.cmp (fun _ => true) tree key value = some (tree', rc) ∧
      Valid c tree' T' ∧ tree'.freeValueCb = true ∧
      live tree' + (tree'.freed.filterMap id : List V) =
        live tree + (tree.freed.filterMap id : List V) + value.toList := by
  have hreleases (mem : ℕ → Bool) (hmem : mem 0 = true ∧ mem 1 = true) :=
    rbtAdd_releases c hmem h.represents h.whole h.ordered key value
  obtain ⟨tree', T', hrun, h', hlog, hfinish⟩ := hreleases (fun _ => true) ⟨rfl, rfl⟩
  have hentries := hfinish.entries_setKey h.ordered
  have hasc := ordered_iff_entries.mp h.ordered
  have hred := (hfinish.redBlack_iff h.ordered h.redBlack).mpr
    (Or.inr (repairFits_of_plenty (fun _ => rfl) _))
  have hvalid : Valid c tree' T' :=
    ⟨h', whole_of_setKey hentries h.whole,
      ordered_iff_entries.mpr (hentries ▸ ascending_setKey hasc _), hred⟩
  refine ⟨tree', _, T', hrun, hvalid, hlog.1.trans hcb, ?_⟩
  have hperm : (setKey c Prod.fst (newEntry key value) (T.values.map entry)).Perm
      (newEntry key value :: (T.values.map entry).filter fun e => c.cmp e.1 key ≠ 0) :=
    setKey_perm _ _
  have hnew : live tree' = (value.toList : Multiset V) +
      (((T.values.map entry).filter fun e => c.cmp e.1 key ≠ 0).filterMap valueOf : List V) := by
    rw [live_eq h', hentries, Multiset.coe_eq_coe.mpr (hperm.filterMap valueOf),
      coe_filterMap_cons]
    rfl
  rw [live_split h key] at hfresh
  rw [hnew, hlog.2, freedBy_eq h hcb, live_split h key]
  by_cases hvalue : value = (lookup c Prod.fst (T.values.map entry) key).bind valueOf
  · -- the pointer would be in the tree already
    have hnull : value = none := by
      cases hv : value with
      | none => rfl
      | some v =>
          refine absurd (Multiset.mem_add.mpr (Or.inl ?_)) (hfresh v (by simp [hv]))
          rw [← hvalue, hv]
          exact List.mem_singleton_self v
    rw [if_pos hvalue, ← hvalue, hnull]
    exact (add_assoc _ _ _).symm
  · rw [if_neg hvalue]
    abel

/-- A value goes to the callback or to the caller. -/
theorem freed_or_handed (wantsValue : Bool) (found : Option (RbtData V)) :
    ((if wantsValue = false ∧ true = true then (found.bind RbtData.value).toList
      else [] : List V) : Multiset V) + (removedAnswer wantsValue found).value.join.toList =
        (found.bind RbtData.value).toList := by
  cases found with
  | none => cases wantsValue <;> rfl
  | some d => cases wantsValue <;> cases hvalue : d.value <;> simp [removedAnswer, hvalue]

theorem rbtRemove_balances (h : Valid c tree T) (hcb : tree.freeValueCb = true)
    (key : List UInt8) (wantsValue : Bool)
    (hfits : NodeFits true (neighbourSide tree.prevnext) (place c T key).1 (place c T key).2) :
    ∃ tree' answer T', rbtRemove c.cmp true tree key wantsValue = some (tree', answer) ∧
      Valid c tree' T' ∧ tree'.freeValueCb = true ∧
      live tree' + (tree'.freed.filterMap id : List V) + answer.value.join.toList =
        live tree + (tree.freed.filterMap id : List V) := by
  obtain ⟨tree', T', hrun, h', hentries, hcb', hlog⟩ := removesKey_of_nodeFits wantsValue h hfits
  refine ⟨tree', _, T', hrun, h', hcb'.trans hcb, ?_⟩
  have hkey (d : RbtData V) : (entry d).1 = d.key := rfl
  have hvalue : (lookup c Prod.fst (T.values.map entry) key).bind valueOf =
      (lookup c RbtData.key T.values key).bind RbtData.value := by
    rw [lookup_map hkey]
    cases lookup c RbtData.key T.values key <;> rfl
  rw [live_eq h'.represents, hentries, hlog, hcb, live_split h key, hvalue, ← Multiset.coe_add,
    ← freed_or_handed wantsValue]
  abel

/-- Every call balances that takes out a node that may go away and brings in a new pointer. -/
theorem stepOp_balances [DecidableEq V] (c : Comparator (List UInt8)) (tree : Rbt V)
    (op : RbtOp V) (h : tree.freeValueCb = true ∧ ∃ T, Valid c tree T)
    (hfits : RemovalFits c tree op) (hfresh : valueHoldings.Fresh tree op) :
    ∃ tree' o, stepOp c.cmp tree op = some (tree', o) ∧
      (tree'.freeValueCb = true ∧ ∃ T, Valid c tree' T) ∧
      valueHoldings.Balances tree op tree' o := by
  obtain ⟨hcb, T, h⟩ := h
  cases op with
  | add key value =>
      have hnew : ∀ v ∈ value.toList, v ∉ live tree := fun v hv hlive =>
        hfresh v hv (Multiset.mem_add.mpr (Or.inl hlive))
      obtain ⟨tree', rc, T', hrun, h', hcb', hbal⟩ := rbtAdd_balances h hcb key value hnew
      refine ⟨tree', .added rc, ?_, ⟨hcb', T', h'⟩, (add_zero _).trans hbal⟩
      rw [stepOp, hrun]
      rfl
  | remove key wantsValue =>
      obtain ⟨tree', answer, T', hrun, h', hcb', hbal⟩ := rbtRemove_balances h hcb key wantsValue
        ((removalFits_iff h key wantsValue).mp hfits)
      refine ⟨tree', .removed answer, ?_, ⟨hcb', T', h'⟩, hbal.trans (add_zero _).symm⟩
      rw [stepOp, hrun]
      rfl
  | find key =>
      have hrun : stepOp c.cmp tree (.find key) =
          some (tree, .found (foundAnswer (lookup c RbtData.key T.values key))) := by
        rw [stepOp, rbtFind_spec c h.represents h.whole h.ordered]
        rfl
      exact ⟨tree, _, hrun, ⟨hcb, T, h⟩, rfl⟩

/-! ## Runs -/

theorem rbtDestroy_spec (h : Valid c tree T) (hcb : tree.freeValueCb = true) :
    ∃ tree', rbtDestroy tree = some tree' ∧ tree'.nodes.cells = 0 ∧
      (tree'.freed.filterMap id : Multiset V) =
        live tree + (tree.freed.filterMap id : List V) := by
  have hcells := h.represents.cells.trans (add_zero _).symm
  have hheight : T.height ≤ tree.nodes.brk :=
    (Nat.le_add_right _ _).trans h.represents.placed.height_le_brk
  obtain ⟨nodes, freed, hrun, hnodes, hfreed⟩ :=
    rbtDestroyInternal_spec T tree.nodes.brk tree.nodes none 0 hheight hcells
  refine ⟨{ tree with nodes := nodes, root := none, freed := tree.freed ++ freed }, ?_, hnodes, ?_⟩
  · simp [rbtDestroy, hcb, h.represents.root_eq, hrun]
  · rw [List.filterMap_append, ← Multiset.coe_add, live_eq h.represents, add_comm]
    refine congrArg (· + _) (Multiset.coe_eq_coe.mpr ((hfreed.filterMap id).trans ?_))
    rw [List.filterMap_map, List.filterMap_map]
    exact List.Perm.refl _

/-- In a run of additions, searches and removals of nodes that may go away, ended by
`rbt_destroy`, every pointer that was added leaves the tree exactly once, to a caller or to the
callback, and no node is left. -/
theorem values_handed_or_freed [DecidableEq V] (c : Comparator (List UInt8)) (prevnext : ℕ)
    (ops : List (RbtOp V)) (hdistinct : (valueHoldings.allBrought ops).Nodup)
    (hfits : StepsMeet (stepOp c.cmp) (RemovalFits c) (rbtCreate true prevnext) ops) :
    ∃ tree os tree', runSteps (stepOp c.cmp) (rbtCreate true prevnext) ops = some (tree, os) ∧
      rbtDestroy tree = some tree' ∧ tree'.nodes.cells = 0 ∧
      (tree'.freed.filterMap id : Multiset V) + valueHoldings.allTaken ops os =
        valueHoldings.allBrought ops := by
  have hempty : valueHoldings.held (rbtCreate true prevnext : Rbt V) = 0 := rfl
  obtain ⟨T, h, -⟩ := stores_rbtCreate (V := V) c true prevnext
  rw [← zero_add (valueHoldings.allBrought ops), ← hempty] at hdistinct
  obtain ⟨tree, os, hrun, ⟨hcb, T', h'⟩, hbal⟩ := valueHoldings.run_balances_of_nodup
    (stepOp_balances c) ops _ ⟨rfl, T, h⟩ hfits hdistinct
  obtain ⟨tree', hdestroy, hcells, hfreed⟩ := rbtDestroy_spec h' hcb
  refine ⟨tree, os, tree', hrun, hdestroy, hcells, ?_⟩
  rw [hfreed, ← zero_add (valueHoldings.allBrought ops), ← hempty]
  exact hbal

/-- A run that replaces a value, has one handed out, and repairs the tree. -/
theorem values_handed_or_freed_mixed : ∃ tree os tree',
    runSteps (stepOp lexicographic.cmp) (rbtCreate true 0)
      [.add [5] (some 5), .add [3] (some 3), .add [9] (some 9), .add [1] (some 1),
        .add [3] (some 4), .remove [1] true] = some (tree, os) ∧
      rbtDestroy tree = some tree' ∧ tree'.nodes.cells = 0 ∧
      (tree'.freed.filterMap id : Multiset ℕ) + valueHoldings.allTaken
        [.add [5] (some 5), .add [3] (some 3), .add [9] (some 9), .add [1] (some 1),
          .add [3] (some 4), .remove [1] true] os =
        valueHoldings.allBrought
          [.add [5] (some 5), .add [3] (some 3), .add [9] (some 9), .add [1] (some 1),
            .add [3] (some 4), .remove [1] true] :=
  values_handed_or_freed lexicographic.toComparator 0 _ (by decide) (by decide)

end RbTree
end LibHL
