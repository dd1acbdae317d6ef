import LibHL.RbTree.WalkCounts

/-!
# Walks that delete nothing

As long as the callback asks neither to stop nor to delete, the tree stays as it is, and the
callback is called for the nodes in preorder or in order.
-/

namespace LibHL
namespace RbTree

open PTree RbtData

variable {V σ : Type} {cb : σ → List UInt8 × ℕ × Option V → σ × ℤ} {tree : Rbt V}
  {T : PTree (RbtData V)}

/-- The callback asks neither to stop nor to delete, at any of the entries. -/
def NeverAsks (cb : σ → List UInt8 × ℕ × Option V → σ × ℤ)
    (es : List (List UInt8 × ℕ × Option V)) : Prop :=
  ∀ u, ∀ e ∈ es, (cb u e).2 ≠ 0 ∧ (cb u e).2 ≠ -1 ∧ (cb u e).2 ≠ -2

theorem entries_places (T : PTree (RbtData V)) :
    (places true T).map (fun p => p.data.entry) = T.values.map entry := by
  rw [← map_data_places, List.map_map]
  rfl

theorem perm_entries_places (sorted : Bool) (T : PTree (RbtData V)) :
    ((places sorted T).map fun p => p.data.entry).Perm (T.values.map entry) := by
  have hperm := (places_perm sorted T).map entry
  rw [List.map_map] at hperm
  exact hperm

/-- The answers of such a callback interrupt no walk, and skip no node. -/
theorem answers_of_neverAsks (sorted : Bool) (user : σ)
    (hgo : NeverAsks cb (T.values.map entry)) :
    (answers cb sorted user (places sorted T)).refused = none ∧
      skipped (answers cb sorted user (places sorted T)).made = 0 := by
  have hplace : ∀ p ∈ places sorted T, p.data.entry ∈ T.values.map entry := fun p hp =>
    List.mem_map_of_mem ((places_perm sorted T).mem_iff.mp (List.mem_map_of_mem hp))
  constructor
  · refine refused_eq_none_of_goes ?_
    intro u p hp
    obtain ⟨hzero, hone, htwo⟩ := hgo u _ (hplace p hp)
    exact decide_eq_true ⟨hzero, htwo, fun hcode => absurd hcode hone⟩
  · refine List.countP_eq_zero.mpr ?_
    intro call hcall hskip
    obtain ⟨u, hu⟩ := exists_answer_of_made hcall
    rw [decide_eq_true_eq, hu] at hskip
    obtain ⟨-, hone, -⟩ := hgo u _ (hplace _ (mem_of_made hcall))
    exact hone hskip.1

/-- The walk of a tree with such a callback counts all nodes, as far as an `int` can. -/
theorem walkTree_of_neverAsks (cmp : List UInt8 → List UInt8 → ℤ) (mem sorted : Bool) (user : σ)
    (h : Represents tree T) (hgo : NeverAsks cb (T.values.map entry)) :
    ∃ s : Walk V σ, s.tree = tree ∧
      s.calls.map Prod.fst = (places sorted T).map (fun p => p.data.entry) ∧
      Leads (walkTree cmp mem cb sorted tree user) (some (s, T.size)) T.size := by
  obtain ⟨hpass, hskipped⟩ := answers_of_neverAsks sorted user hgo
  obtain ⟨n, hn⟩ : ∃ n, Passes (rbtWalkInternal cmp mem cb sorted (tree.nodes.brk + 1))
      ⟨tree, user, []⟩ T (answers cb sorted user (places sorted T)) n :=
    walk_passes T _ _ [] (height_le_fuel h) h.placed hpass
  obtain ⟨hcounts, -, hleads⟩ := hn
  rw [hskipped, add_zero] at hcounts
  rw [← walkTree_eq h, hcounts] at hleads
  refine ⟨_, rfl, ?_, hleads⟩
  have hmade : (answers cb sorted user (places sorted T)).made.map Prod.fst = places sorted T :=
    map_fst_made_of_none hpass
  have hcalls := congrArg (List.map fun p => p.data.entry) hmade
  rw [List.map_map] at hcalls
  rw [calls_fed_nil, List.map_map]
  exact hcalls

end RbTree
end LibHL
