import LibHL.AvlTree.MapRuns
import LibHL.Support.Holdings

/-!
# The lives of the values of an AVL tree

`avlt_destroy` removes the root until there is none.  A removal of the key at the root always
finds the root, in whatever order the keys are, so the loop ends, and every node that is left
is released.  Over a whole run each value goes where it should exactly once, also where
additions have put keys out of order.
-/

namespace LibHL
namespace AvlTree

open PTree AvltData

variable {K V : Type}

/-! ## The code -/

/-- The loop of `avlt_destroy`, with the nodes that are left and the values passed to the
callback. -/
def destroyLoop (cmp : K → K → ℤ) : ℕ → Avlt K V → Option (Heap (AvltNode K V) × List V)
  | fuel, tree =>
      match tree.root, fuel with
      | none, _ => some (tree.nodes, [])
      | some _, 0 => none
      | some root, fuel + 1 => do
          let n ← tree.nodes root
          let r ← avltRemove cmp tree n.data.key false
          let rest ← destroyLoop cmp fuel r.1
          some (rest.1, r.2.freed.toList ++ rest.2)

/-- `avlt_destroy`.  The bound is one that is never reached. -/
def avltDestroy (cmp : K → K → ℤ) (tree : Avlt K V) : Option (Heap (AvltNode K V) × List V) :=
  destroyLoop cmp (tree.nodes.brk + 1) tree

/-! ## What the nodes hold -/

/-- The values in the live nodes; a null pointer is no value. -/
def held (tree : Avlt K V) : Multiset V := tree.nodes.cells.filterMap fun c => c.2.data.value

/-- The pointers that leave the tree and the callback with an answer. -/
def RemoveResult.values (r : RemoveResult V) : Multiset V := r.value.join.toList + r.freed.toList

/-- A value that is added goes into the tree, or stays with the caller.  A value that is
removed goes to the caller or to the callback. -/
def valueHoldings : Holdings (Avlt K V) (AvltOp K V) (AvltAnswer V) V where
  held := held
  brought
    | .add _ value => value.toList
    | .remove _ _ => 0
  taken
    | .add _ value, .added rc => if rc = 0 then 0 else value.toList
    | _, .removed r => r.values
    | _, _ => 0

variable {c : Comparator K} {tree : Avlt K V} {T T' : PTree (AvltData K V)}

theorem AvlShape.held_eq (h : AvlShape tree T) :
    held tree = ((entries T).filterMap Prod.snd : List V) := by
  have hcells : ∀ p, (T.cells p).filterMap (fun c => c.2.data.value) =
      ((T.cells p).map fun c => entry c.2.data).filterMap Prod.snd := by
    intro p
    rw [Multiset.filterMap_map]
    rfl
  rw [held, h.cells, hcells, map_cells]
  rfl

theorem filterMap_perm_cons {e : K × Option V} {es fs : List (K × Option V)}
    (h : fs.Perm (e :: es)) : (fs.filterMap Prod.snd : Multiset V) =
      (e.2.toList : Multiset V) + (es.filterMap Prod.snd : List V) := by
  rw [Multiset.coe_add, Multiset.coe_eq_coe]
  refine (h.filterMap _).trans ?_
  rw [List.filterMap_cons]
  cases e.2 <;> exact List.Perm.refl _

theorem values_handOver (wantsValue : Bool) (value : Option V) :
    (handOver true wantsValue value).values = value.toList := by
  cases wantsValue <;> cases value <;> rfl

/-! ## The calls -/

theorem avltAdd_balances (cmp : K → K → ℤ) (h : AvlShape tree T) (key : K) (value : Option V) :
    ∃ tree' rc T', avltAdd cmp tree key value = some (tree', rc) ∧ AvlShape tree' T' ∧
      held tree' + (if rc = 0 then 0 else (value.toList : Multiset V)) =
        held tree + value.toList := by
  by_cases hT : T = .leaf
  · subst hT
    obtain ⟨tree', hrun, hrep⟩ := avltAdd_leaf cmp h.represents key value
    have h' := avlShape_of_represents hrep
      ⟨trivial, trivial, rfl, rfl, Nat.zero_le _, Nat.zero_le _⟩
    have hperm : (entries (.node .leaf tree.nodes.brk ⟨key, value, 0, 0⟩ .leaf)).Perm
        ((key, value) :: entries .leaf) := List.Perm.refl _
    refine ⟨tree', 0, _, hrun, h', ?_⟩
    rw [h'.held_eq, h.held_eq, if_pos rfl, add_zero, filterMap_perm_cons hperm, add_comm]
  rcases avltAdd_node cmp h.represents h.balanced hT key value with
    ⟨-, hrun⟩ | ⟨t, fs, tree', T', hins, hrun, hrep, hbal, hentries⟩
  · refine ⟨tree, -1, T, hrun, h, ?_⟩
    rw [if_neg (by decide)]
  · have h' := avlShape_of_represents hrep hbal
    refine ⟨tree', 0, T', hrun, h', ?_⟩
    have hperm : (entries T').Perm ((key, value) :: entries T) := by
      rw [hentries]
      exact perm_entries_of_bag hins.bag_eq
    rw [h'.held_eq, h.held_eq, if_pos rfl, add_zero, filterMap_perm_cons hperm, add_comm]

/-- A node that is found goes away with its entry. -/
theorem avltRemove_balances (cmp : K → K → ℤ) (key : K) (h : AvlShape tree T)
    (hcb : tree.freeValueCb = true) (wantsValue : Bool) :
    ∃ tree' r T', avltRemove cmp tree key wantsValue = some (tree', r) ∧ AvlShape tree' T' ∧
      held tree' + r.values = held tree ∧ (wantsValue = false → r.value = none) ∧
      (findAt cmp key T [] ≠ none → (entries T').length + 1 = (entries T).length) := by
  cases hfind : findAt cmp key T [] with
  | none =>
      refine ⟨tree, _, T, avltRemove_absent cmp key h.represents hfind wantsValue, h,
        add_zero _, fun _ => rfl, fun hne => absurd rfl hne⟩
  | some p =>
      obtain ⟨t, fs⟩ := p
      obtain ⟨-, l, x, d, r, rfl, -⟩ := findAt_eq_some cmp key T _ _ _ hfind
      obtain ⟨tree', T', hrun, hrep, hbal, hwithout⟩ :=
        avltRemove_present cmp key h.represents h.balanced hfind wantsValue
      have h' := avlShape_of_represents hrep hbal
      have hperm : (entries T).Perm (d.entry :: entries T') :=
        Multiset.coe_eq_coe.mp hwithout.coe_eq
      refine ⟨tree', _, T', hrun, h', ?_, ?_, fun _ => hperm.length_eq.symm⟩
      · rw [avltRemove_freeValueCb hrun, hcb, values_handOver, h'.held_eq, h.held_eq,
          filterMap_perm_cons hperm, add_comm]
        rfl
      · rintro rfl
        rfl

/-- Every call balances, whatever comparator the tree has. -/
theorem stepOp_balances (cmp : K → K → ℤ) (tree : Avlt K V) (op : AvltOp K V)
    (h : tree.freeValueCb = true ∧ ∃ T, AvlShape tree T) :
    ∃ tree' o, stepOp cmp tree op = some (tree', o) ∧
      (tree'.freeValueCb = true ∧ ∃ T, AvlShape tree' T) ∧
      valueHoldings.Balances tree op tree' o := by
  obtain ⟨hcb, T, h⟩ := h
  cases op with
  | add key value =>
      obtain ⟨tree', rc, T', hrun, h', hbal⟩ := avltAdd_balances cmp h key value
      refine ⟨tree', .added rc, ?_, ⟨(avltAdd_freeValueCb hrun).trans hcb, T', h'⟩, hbal⟩
      rw [stepOp, hrun]
      rfl
  | remove key wantsValue =>
      obtain ⟨tree', r, T', hrun, h', hbal, -, -⟩ := avltRemove_balances cmp key h hcb wantsValue
      refine ⟨tree', .removed r, ?_, ⟨(avltRemove_freeValueCb hrun).trans hcb, T', h'⟩, ?_⟩
      · rw [stepOp, hrun]
        rfl
      · exact hbal.trans (add_zero _).symm

/-! ## The end -/

theorem findAt_root (c : Comparator K) (l r : PTree (AvltData K V)) (x : Addr) (d : AvltData K V) :
    findAt c.cmp d.key (.node l x d r) [] = some (.node l x d r, []) := by
  have hself : c.cmp d.key d.key = 0 :=
    le_antisymm (c.refl d.key) ((c.dual d.key d.key).mpr (c.refl d.key))
  rw [findAt, if_neg (by omega), if_neg (by omega)]

theorem destroyLoop_spec (c : Comparator K) : ∀ (fuel : ℕ) (tree : Avlt K V)
    (T : PTree (AvltData K V)), (entries T).length ≤ fuel → AvlShape tree T →
    tree.freeValueCb = true → ∃ nodes freed, destroyLoop c.cmp fuel tree = some (nodes, freed) ∧
      nodes.cells = 0 ∧ (freed : Multiset V) = held tree := by
  intro fuel
  induction fuel with
  | zero =>
      intro tree T hle h hcb
      cases T with
      | leaf =>
          have hroot : tree.root = none := h.root
          refine ⟨tree.nodes, [], ?_, h.cells, h.held_eq.symm⟩
          simp only [destroyLoop, hroot]
      | node l x d r =>
          rw [entries, List.length_map, values, List.length_append] at hle
          simp at hle
  | succ fuel ih =>
      intro tree T hle h hcb
      cases T with
      | leaf =>
          have hroot : tree.root = none := h.root
          refine ⟨tree.nodes, [], ?_, h.cells, h.held_eq.symm⟩
          simp only [destroyLoop, hroot]
      | node l x d r =>
          have hroot : tree.root = some x := h.root
          have hx : tree.nodes x = some ⟨l.addr, r.addr, none, d⟩ :=
            At.node_eq (s := .left) h.represents
          obtain ⟨tree', result, T', hrun, h', hbal, hvalue, hlen⟩ :=
            avltRemove_balances c.cmp d.key h hcb false
          have hshort := hlen (by rw [findAt_root]; exact Option.some_ne_none _)
          obtain ⟨nodes, freed, hloop, hcells, hfreed⟩ := ih tree' T' (by omega) h'
            ((avltRemove_freeValueCb hrun).trans hcb)
          refine ⟨nodes, result.freed.toList ++ freed, ?_, hcells, ?_⟩
          · simp [destroyLoop, hroot, hx, hrun, hloop]
          · rw [← hbal, RemoveResult.values, hvalue rfl, ← Multiset.coe_add, hfreed, add_comm]
            exact congrArg _ (zero_add _).symm

theorem avltDestroy_spec (c : Comparator K) (h : AvlShape tree T)
    (hcb : tree.freeValueCb = true) : ∃ nodes freed, avltDestroy c.cmp tree = some (nodes, freed) ∧
      nodes.cells = 0 ∧ (freed : Multiset V) = held tree := by
  refine destroyLoop_spec c _ tree T ?_ h hcb
  rw [length_entries]
  exact (size_le_brk (h.cells.trans (add_zero _).symm)).trans (Nat.le_succ _)

/-- In every run that ends with `avlt_destroy`, every value that was brought in has left the
tree exactly once: it was refused, handed to a caller, or passed to the callback; and no node
is left.  The order of the keys plays no part in this. -/
theorem values_leave_once (c : Comparator K) (ops : List (AvltOp K V)) :
    ∃ tree os nodes freed, runSteps (stepOp c.cmp) (avltCreate true) ops = some (tree, os) ∧
      avltDestroy c.cmp tree = some (nodes, freed) ∧ nodes.cells = 0 ∧
      (freed : Multiset V) + valueHoldings.allTaken ops os = valueHoldings.allBrought ops := by
  have hcreate : (avltCreate true : Avlt K V).freeValueCb = true ∧
      ∃ T, AvlShape (avltCreate true : Avlt K V) T :=
    ⟨rfl, .leaf, avlShape_of_represents (represents_avltCreate true) trivial⟩
  obtain ⟨tree, os, hrun, ⟨hcb, T, h⟩, hbal⟩ := valueHoldings.run_balances
    (fun tree op h (_ : True) => stepOp_balances c.cmp tree op h) ops _ hcreate
    (stepsMeet_of_forall (fun _ _ => trivial) ops _)
  obtain ⟨nodes, freed, hdestroy, hcells, hfreed⟩ := avltDestroy_spec c h hcb
  refine ⟨tree, os, nodes, freed, hrun, hdestroy, hcells, ?_⟩
  have hempty : valueHoldings.held (avltCreate true : Avlt K V) = 0 := rfl
  rw [hfreed, ← zero_add (valueHoldings.allBrought ops), ← hempty]
  exact hbal

/-- Eight keys, of which the last one puts the tree out of order. -/
example : ((runSteps (stepOp natComparator.cmp) (avltCreate true)
    ([0, 1, 2, 5, 6, 7, 4, 3].map fun k => .add k (some k))).bind fun r =>
      avltDestroy natComparator.cmp r.1).map (fun r => r.2.length) = some 8 := by
  decide

end AvlTree
end LibHL
