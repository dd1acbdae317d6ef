import LibHL.AvlTree.Order

/-!
# What a removal takes out of an ordered tree

The search of a removal is the search of an ordered tree, so the node it ends at holds the
key if there is one.  What the tree stores, read from left to right, loses the entry of
that node and nothing else, whichever neighbour took its place and however the tree was
balanced afterwards.
-/

namespace LibHL
namespace AvlTree

open PTree AvltData

variable {K V : Type} {c : Comparator K} {tree : Avlt K V} {T : PTree (AvltData K V)} {key : K}

/-! ## The search -/

/-- The search of the source ends where a search of the tree does, if that is at a node. -/
theorem findAt_eq_seek (cmp : K → K → ℤ) (key : K) (t : PTree (AvltData K V)) :
    ∀ fs : List (Frame (AvltData K V)), findAt cmp key t fs =
      (seek (fun d => cmp d.key key) t fs).1.rootData.map fun _ =>
        seek (fun d => cmp d.key key) t fs := by
  induction t with
  | leaf =>
      intro fs
      rfl
  | node l x d r ihl ihr =>
      intro fs
      rw [findAt, seek]
      rcases lt_trichotomy (cmp d.key key) 0 with hlt | heq | hgt
      · rw [if_pos hlt, if_neg (ne_of_lt hlt), if_neg (not_lt_of_gt hlt)]
        exact ihr _
      · rw [heq, if_neg (lt_irrefl 0), if_neg (lt_irrefl 0), if_pos rfl]
        rfl
      · rw [if_neg (not_lt_of_gt hgt), if_pos hgt, if_neg (ne_of_gt hgt), if_pos hgt]
        exact ihl _

theorem lookup_entries (k : K) :
    lookup c Prod.fst (entries T) k = (lookup c AvltData.key T.values k).map AvltData.entry := by
  rw [lookup, entries, List.find?_map]
  rfl

/-- In an ordered tree the removal finds the entry with the key, if there is one. -/
theorem findAt_of_ordered (hord : Ordered c AvltData.key T) (key : K) :
    (findAt c.cmp key T [] = none ∧ lookup c Prod.fst (entries T) key = none) ∨
      ∃ l x d r fs, findAt c.cmp key T [] = some (.node l x d r, fs) ∧
        c.cmp d.key key = 0 ∧ lookup c Prod.fst (entries T) key = some d.entry := by
  have hseek := rootData_seek hord key
  rw [lookup_entries, findAt_eq_seek, ← hseek]
  rcases seek_cases (c := fun d : AvltData K V => c.cmp d.key key) T [] with
    hleaf | ⟨l, x, d, r, hnode, hzero⟩
  · left
    rw [hleaf]
    exact ⟨rfl, rfl⟩
  · right
    refine ⟨l, x, d, r, (seek (fun d => c.cmp d.key key) T []).2, ?_, hzero, ?_⟩
    · rw [hnode]
      exact congrArg some (Prod.ext hnode rfl)
    · rw [hnode]
      rfl

/-! ## The removal -/

/-- The key is gone, and the other entries are as they were. -/
def entriesBut (c : Comparator K) (key : K) (T : PTree (AvltData K V)) : List (K × Option V) :=
  (entries T).filter fun e => c.cmp e.1 key ≠ 0

theorem entriesBut_of_without {T' : PTree (AvltData K V)} {e : K × Option V}
    (hord : Ordered c AvltData.key T) (hkey : c.cmp e.1 key = 0)
    (hwithout : Without e (entries T) (entries T')) :
    Ordered c AvltData.key T' ∧ entries T' = entriesBut c key T := by
  have hascending : Ascending c Prod.fst (entries T) := ordered_iff_entries.mp hord
  constructor
  · exact ordered_iff_entries.mpr (hwithout.ascending hascending)
  · exact hwithout.eq_filter hascending hkey

/-- On a balanced search tree a removal leaves a balanced search tree.  Its entries are the
old ones without the key, and the value of the key, if there is one, goes to the caller. -/
theorem avltRemove_removes_key (c : Comparator K) (tree : Avlt K V) (T : PTree (AvltData K V))
    (h : AvlShape tree T) (hord : Ordered c AvltData.key T) (key : K) (wantsValue : Bool) :
    ∃ tree' T' result, avltRemove c.cmp tree key wantsValue = some (tree', result) ∧
      AvlShape tree' T' ∧ Ordered c AvltData.key T' ∧ entries T' = entriesBut c key T ∧
      result.rc = 0 ∧
      result.value = (if wantsValue then
        (lookup c Prod.fst (entries T) key).map Prod.snd else none) ∧
      (wantsValue = true → result.freed = none) := by
  rcases findAt_of_ordered hord key with
    ⟨hfind, hlookup⟩ | ⟨l, x, d, r, fs, hfind, hzero, hlookup⟩
  · refine ⟨tree, T, ⟨0, none, none⟩, ?_, h, hord, ?_, rfl, ?_, fun _ => rfl⟩
    · exact avltRemove_absent c.cmp key h.represents hfind wantsValue
    · exact (filter_of_lookup_eq_none hlookup).symm
    · rw [hlookup]
      exact (ite_self none).symm
  · obtain ⟨tree', T', hrun, hrep, hbal, hwithout⟩ :=
      avltRemove_present c.cmp key h.represents h.balanced hfind wantsValue
    obtain ⟨hord', hentries⟩ := entriesBut_of_without hord hzero hwithout
    refine ⟨tree', T', _, hrun, avlShape_of_represents hrep hbal, hord', hentries, rfl, ?_, ?_⟩
    · rw [hlookup]
      rfl
    · rintro rfl
      rfl

/-- A removal from a tree with several keys, where the root has two children. -/
theorem avltRemove_removes_key_sample :
    ∃ (tree : Avlt ℕ ℕ) (T : PTree (AvltData ℕ ℕ)),
      (runSteps (addStep natComparator.cmp) (avltCreate false) (addsOf [5, 3, 9, 1, 4, 7])).map
        Prod.fst = some tree ∧
      ∃ tree' T' result, avltRemove natComparator.cmp tree 5 true = some (tree', result) ∧
        AvlShape tree' T' ∧ Ordered natComparator.toComparator AvltData.key T' ∧
        entries T' = entriesBut natComparator.toComparator 5 T ∧ result.rc = 0 ∧
        result.value = (if true then (lookup natComparator.toComparator Prod.fst
          (entries T) 5).map Prod.snd else none) ∧
        (true = true → result.freed = none) := by
  obtain ⟨tree, hrun, T, hshape, hord, -⟩ := holds_of_adds natComparator false
    (addsOf [5, 3, 9, 1, 4, 7]) (by decide)
  refine ⟨tree, T, ?_, ?_⟩
  · rw [hrun]
    rfl
  · exact avltRemove_removes_key natComparator.toComparator tree T hshape hord 5 true

end AvlTree
end LibHL
