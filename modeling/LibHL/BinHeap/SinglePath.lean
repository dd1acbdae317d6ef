import LibHL.BinHeap.Refinement

/-!
# Searches along a single path

Two searches choose one root and then go down, one child at a time: the one for the end
that the heap is not organised for, and the one for a key.  They never come back to a
branch they left.  So they find what they look for exactly if they never take a branch
without it while another one has it.
-/

namespace LibHL
namespace BinHeap

variable {K V : Type}

/-! ## Paths -/

section Path

variable (nodes : Heap (BinomialTreeNode K V)) (target : Addr → Prop)
  (next : Addr → Option Addr)

/-- The tree under a node, down to a given depth, holds a node that is searched for. -/
def Holds (depth : ℕ) (a : Addr) : Prop := ∃ b ∈ subtree nodes depth a, target b

/-- A choice among trees loses nothing: if one of them holds a node that is searched for,
then so does the chosen one. -/
def LosesNone (depth : ℕ) (alternatives : List Addr) (chosen : Addr) : Prop :=
  (∃ a ∈ alternatives, Holds nodes target depth a) → Holds nodes target depth chosen

/-- No choice on the way down from a node loses anything. -/
def PathLosesNone : ℕ → Addr → Prop
  | 0, _ => True
  | fuel + 1, a =>
      match next a with
      | none => True
      | some d => LosesNone nodes target fuel (childrenOf nodes a) d ∧ PathLosesNone fuel d

/-- No choice of a search loses anything, neither that of the root nor those on the way
down from it. -/
def SearchLosesNone (trees : List Addr) (root : Option Addr) : Prop :=
  match root with
  | none => True
  | some r => LosesNone nodes target nodes.brk trees r ∧
      PathLosesNone nodes target next nodes.brk r

/-- The end of the way down from a node. -/
def follow : ℕ → Addr → Option Addr
  | 0, _ => none
  | fuel + 1, a =>
      match next a with
      | none => some a
      | some d => follow fuel d

instance decidableHolds [DecidablePred target] (depth : ℕ) (a : Addr) :
    Decidable (Holds nodes target depth a) :=
  List.decidableBEx target (subtree nodes depth a)

instance decidableLosesNone [DecidablePred target] (depth : ℕ) (l : List Addr) (a : Addr) :
    Decidable (LosesNone nodes target depth l a) :=
  have : Decidable (∃ a ∈ l, Holds nodes target depth a) :=
    List.decidableBEx (Holds nodes target depth) l
  inferInstanceAs (Decidable (_ → _))

instance decidablePathLosesNone [DecidablePred target] : ∀ (fuel : ℕ) (a : Addr),
    Decidable (PathLosesNone nodes target next fuel a)
  | 0, _ => isTrue trivial
  | fuel + 1, a =>
      match h : next a with
      | none => isTrue (by simp [PathLosesNone, h])
      | some d =>
          have := decidablePathLosesNone fuel d
          decidable_of_iff (LosesNone nodes target fuel (childrenOf nodes a) d ∧
            PathLosesNone nodes target next fuel d) (by simp [PathLosesNone, h])

instance decidableSearchLosesNone [DecidablePred target] (trees : List Addr)
    (root : Option Addr) : Decidable (SearchLosesNone nodes target next trees root) :=
  match root with
  | none => isTrue trivial
  | some r => inferInstanceAs (Decidable (LosesNone nodes target nodes.brk trees r ∧
      PathLosesNone nodes target next nodes.brk r))

end Path

/-- Every step of a search goes to a child, and there is only one kind of place where it
may end: at a node that is searched for, or above no such node.  A node that is searched
for and that the search leaves again has such a child. -/
structure Descends (nodes : Heap (BinomialTreeNode K V)) (target : Addr → Prop)
    (next : Addr → Option Addr) : Prop where
  child : ∀ a d, next a = some d → d ∈ childrenOf nodes a
  down : ∀ a d, next a = some d → target a → target d
  stop : ∀ a, a ∈ nodes.live → next a = none → ∀ depth, Holds nodes target depth a → target a

variable {nodes : Heap (BinomialTreeNode K V)} {target : Addr → Prop}
  {next : Addr → Option Addr} {trees : List Addr} {a l r : Addr}

theorem holds_of_child {depth : ℕ} {d : Addr} (hd : d ∈ childrenOf nodes a)
    (h : Holds nodes target depth d) : Holds nodes target (depth + 1) a := by
  obtain ⟨b, hb, ht⟩ := h
  exact ⟨b, List.mem_cons_of_mem a (List.mem_flatMap.mpr ⟨d, hd, hb⟩), ht⟩

theorem holds_succ_iff {depth : ℕ} : Holds nodes target (depth + 1) a ↔
    target a ∨ ∃ d ∈ childrenOf nodes a, Holds nodes target depth d := by
  constructor
  · rintro ⟨b, hb, ht⟩
    rcases List.mem_cons.mp hb with rfl | hb
    · exact Or.inl ht
    · obtain ⟨d, hd, hb⟩ := List.mem_flatMap.mp hb
      exact Or.inr ⟨d, hd, b, hb, ht⟩
  · rintro (ht | ⟨d, hd, h⟩)
    · exact ⟨a, List.mem_cons_self, ht⟩
    · exact holds_of_child hd h

theorem follow_mem_subtree (hchild : ∀ a d, next a = some d → d ∈ childrenOf nodes a) :
    ∀ {fuel : ℕ} {a : Addr}, follow next fuel a = some l → l ∈ subtree nodes fuel a := by
  intro fuel
  induction fuel with
  | zero => exact fun h => nomatch h
  | succ fuel ih =>
      intro a h
      rw [follow] at h
      cases hnext : next a with
      | none =>
          rw [hnext] at h
          cases h
          exact List.mem_cons_self
      | some d =>
          rw [hnext] at h
          exact List.mem_cons_of_mem a (List.mem_flatMap.mpr ⟨d, hchild a d hnext, ih h⟩)

/-- The way down loses nothing exactly if it ends at a node that is searched for, or if
there is none under the node it starts from. -/
theorem pathLosesNone_iff (hdesc : Descends nodes target next)
    (hkid : ∀ a ∈ nodes.live, ∀ d ∈ childrenOf nodes a, d ∈ nodes.live) :
    ∀ {fuel : ℕ} {a : Addr}, a ∈ nodes.live → follow next fuel a = some l →
      (PathLosesNone nodes target next fuel a ↔ (Holds nodes target fuel a → target l)) := by
  intro fuel
  induction fuel with
  | zero => exact fun _ h => nomatch h
  | succ fuel ih =>
      intro a ha h
      rw [follow] at h
      rw [PathLosesNone]
      cases hnext : next a with
      | none =>
          rw [hnext] at h
          cases h
          exact iff_of_true trivial (hdesc.stop _ ha hnext _)
      | some d =>
          rw [hnext] at h
          have hd := hdesc.child a d hnext
          have hmem := follow_mem_subtree hdesc.child h
          dsimp only
          rw [ih (hkid a ha d hd) h]
          constructor
          · rintro ⟨hchoice, hrest⟩ hholds
            rcases holds_succ_iff.mp hholds with ht | hsome
            · have hself : d ∈ subtree nodes fuel d := by
                cases fuel with
                | zero => cases h
                | succ fuel => exact List.mem_cons_self
              exact hrest ⟨d, hself, hdesc.down a d hnext ht⟩
            · exact hrest (hchoice hsome)
          · intro htarget
            refine ⟨fun hsome => ⟨l, hmem, htarget ?_⟩, fun hholds => htarget ?_⟩
            · exact holds_succ_iff.mpr (Or.inr hsome)
            · exact holds_of_child hd hholds

/-- A search loses nothing exactly if it ends at a node that is searched for, or if there
is none in the trees. -/
theorem searchLosesNone_iff (hdesc : Descends nodes target next)
    (hkid : ∀ a ∈ nodes.live, ∀ d ∈ childrenOf nodes a, d ∈ nodes.live)
    (hr : r ∈ trees) (hlive : r ∈ nodes.live) (hend : follow next nodes.brk r = some l) :
    SearchLosesNone nodes target next trees (some r) ↔
      ((∃ b ∈ trees.flatMap (subtree nodes nodes.brk), target b) → target l) := by
  rw [SearchLosesNone, pathLosesNone_iff hdesc hkid hlive hend]
  have hmem := follow_mem_subtree hdesc.child hend
  constructor
  · rintro ⟨hchoice, hrest⟩ ⟨b, hb, ht⟩
    obtain ⟨t, ht', hb⟩ := List.mem_flatMap.mp hb
    exact hrest (hchoice ⟨t, ht', b, hb, ht⟩)
  · intro htarget
    refine ⟨?_, ?_⟩
    · rintro ⟨t, ht, b, hb, hb'⟩
      exact ⟨l, hmem, htarget ⟨b, List.mem_flatMap.mpr ⟨t, ht, hb⟩, hb'⟩⟩
    · rintro ⟨b, hb, hb'⟩
      exact htarget ⟨b, List.mem_flatMap.mpr ⟨r, hr, hb⟩, hb'⟩

/-! ## The other end

The search takes the most extreme root and then always the most extreme child, down to a
leaf.  Nothing in the heap order makes that leaf extreme. -/

section OtherEnd

variable (cmp : K → K → ℤ) (side : BinheapMode) (nodes : Heap (BinomialTreeNode K V))

/-- The child the walk goes to, if there is any. -/
def chosenChild (a : Addr) : Option Addr := do
  let n ← nodes a
  match ← findChildOf cmp side nodes n with
  | none => none
  | some i => n.children[i]?

/-- A node with precedence over all live nodes. -/
def Extreme (a : Addr) : Prop := ∀ b ∈ nodes.live, Above cmp side nodes a b

instance decidableExtreme (a : Addr) : Decidable (Extreme cmp side nodes a) :=
  inferInstanceAs (Decidable (∀ b ∈ nodes.live, Above cmp side nodes a b))

/-- The root the search starts from, if there is any. -/
def chosenRoot (bh : BinHeap K V) : Option Addr := do
  match ← binheapMaxmin cmp bh side with
  | none => none
  | some i => bh.trees[i]?

end OtherEnd

/-- The end that a heap is not organised for. -/
def opposite : BinheapMode → BinheapMode
  | .max => .min
  | .min => .max

variable {c : Comparator K} {bh : BinHeap K V} {mode side : BinheapMode} {n : BinomialTreeNode K V}

theorem hasPrecedence_opposite_iff (k₁ k₂ : K) :
    HasPrecedence c.cmp (opposite mode) k₁ k₂ ↔ HasPrecedence c.cmp mode k₂ k₁ := by
  cases mode with
  | max => exact (c.dual k₂ k₁).symm
  | min => exact c.dual k₁ k₂

theorem opposite_ne (mode : BinheapMode) : mode ≠ opposite mode := by
  cases mode with
  | max => nofun
  | min => nofun

/-- The search for the other end never leaves all extreme items behind in a branch it does
not take. -/
def OppositeLosesNone (cmp : K → K → ℤ) (bh : BinHeap K V) : Prop :=
  SearchLosesNone bh.nodes (Extreme cmp (opposite bh.mode) bh.nodes)
    (chosenChild cmp (opposite bh.mode) bh.nodes) bh.trees (chosenRoot cmp (opposite bh.mode) bh)

theorem chosenChild_mem {cmp : K → K → ℤ} {d : Addr} (h : chosenChild cmp side nodes a = some d) :
    ∃ n, nodes a = some n ∧ d ∈ n.children := by
  obtain ⟨n, hn, h⟩ := Option.bind_eq_some_iff.mp h
  obtain ⟨choice, -, h⟩ := Option.bind_eq_some_iff.mp h
  cases choice with
  | none => cases h
  | some i => exact ⟨n, hn, List.mem_of_getElem? h⟩

theorem childrenOf_of_chosenChild (hkids : ∀ d ∈ childrenOf nodes a, d ∈ nodes.live)
    (ha : a ∈ nodes.live) (h : chosenChild c.cmp side nodes a = none) : childrenOf nodes a = [] := by
  obtain ⟨n, hn⟩ := Heap.exists_of_mem_live ha
  rw [childrenOf_eq hn] at hkids ⊢
  by_contra hne
  obtain ⟨i, d, hi, hid, -⟩ := findChildOf_dominates c side hkids hne
  simp [chosenChild, hn, hi, hid] at h

theorem opposite_descends (h : Ordered c mode nodes trees) :
    Descends nodes (Extreme c.cmp (opposite mode) nodes)
      (chosenChild c.cmp (opposite mode) nodes) where
  child := by
    intro a d hd
    obtain ⟨n, hn, hmem⟩ := chosenChild_mem hd
    rwa [childrenOf_eq hn]
  down := by
    intro a d hd hext b hb
    obtain ⟨n, hn, hmem⟩ := chosenChild_mem hd
    have ha := Heap.mem_live_of_eq_some hn
    rw [← childrenOf_eq hn] at hmem
    have hda : Above c.cmp (opposite mode) nodes d a := by
      intro k l hk hl
      exact (hasPrecedence_opposite_iff k l).mpr (h.above a ha d hmem l k hl hk)
    exact above_trans c ha hda (hext b hb)
  stop := by
    rintro a ha hnone depth ⟨b, hb, hext⟩
    have hleaf := childrenOf_of_chosenChild (fun d hd => h.forest.mem_of_kid ha hd) ha hnone
    cases depth with
    | zero => cases hb
    | succ depth =>
        rw [subtree, hleaf, List.flatMap_nil, List.mem_singleton] at hb
        rwa [hb] at hext

theorem follow_of_descend {cmp : K → K → ℤ} : ∀ {fuel : ℕ} {a : Addr},
    descend cmp side nodes fuel a = some l →
      follow (chosenChild cmp side nodes) fuel a = some l := by
  intro fuel
  induction fuel with
  | zero => exact fun h => nomatch h
  | succ fuel ih =>
      intro a h
      rw [descend] at h
      obtain ⟨n, hn, h⟩ := Option.bind_eq_some_iff.mp h
      obtain ⟨choice, hchoice, h⟩ := Option.bind_eq_some_iff.mp h
      rw [follow]
      cases choice with
      | none =>
          have hnext : chosenChild cmp side nodes a = none := by
            simp [chosenChild, hn, hchoice]
          rw [hnext]
          exact h
      | some i =>
          obtain ⟨d, hd, h⟩ := Option.bind_eq_some_iff.mp h
          have hnext : chosenChild cmp side nodes a = some d := by
            simp [chosenChild, hn, hchoice, hd]
          rw [hnext]
          exact ih h

theorem exists_extreme (c : Comparator K) (side : BinheapMode) (hne : nodes.live ≠ ∅) :
    ∃ b ∈ nodes.live, Extreme c.cmp side nodes b := by
  have hlist : nodes.live.toList ≠ [] := mt Finset.toList_eq_nil.mp hne
  obtain ⟨i, b, -, hb, hdom⟩ := choose_dominates c (chooses_root c side)
    (fun a ha => Finset.mem_toList.mp ha) hlist
  refine ⟨b, Finset.mem_toList.mp (List.mem_of_getElem? hb), ?_⟩
  exact fun d hd => hdom d (Finset.mem_toList.mpr hd)

/-- What the search for the other end finds is extreme exactly if the search loses
nothing. -/
theorem getExtremum_losesNone_iff (h : Consistent c bh) {i : ℕ}
    (hget : getExtremum c.cmp bh (opposite bh.mode) = some (some l, i)) :
    OppositeLosesNone c.cmp bh ↔ Extreme c.cmp (opposite bh.mode) bh.nodes l := by
  have hside := opposite_ne bh.mode
  rw [getExtremum, if_neg (fun hand => hside hand.1)] at hget
  obtain ⟨choice, hchoice, hget⟩ := Option.bind_eq_some_iff.mp hget
  cases choice with
  | none => cases hget
  | some j =>
      obtain ⟨r, hr, hget⟩ := Option.bind_eq_some_iff.mp hget
      rw [if_neg hside] at hget
      obtain ⟨leaf, hleaf, hget⟩ := Option.bind_eq_some_iff.mp hget
      cases hget
      have hroot : chosenRoot c.cmp (opposite bh.mode) bh = some r := by
        simp [chosenRoot, hchoice, hr]
      have hmem := List.mem_of_getElem? hr
      have hlive := h.ordered.trees_live r hmem
      rw [OppositeLosesNone, hroot, searchLosesNone_iff (opposite_descends h.ordered)
        (fun a ha d hd => h.ordered.forest.mem_of_kid ha hd) hmem hlive (follow_of_descend hleaf)]
      have hperm := flatMap_subtree_perm h.ordered.forest
      obtain ⟨b, hb, hext⟩ := exists_extreme c (opposite bh.mode)
        (fun hempty => absurd hlive (hempty ▸ Finset.notMem_empty r))
      refine ⟨fun htarget => htarget ⟨b, ?_, hext⟩, fun hl _ => hl⟩
      exact hperm.mem_iff.mpr (Finset.mem_toList.mpr hb)

/-- `binheap_minimum` of a heap that is organised for its maximum, and `binheap_maximum` of
the others. -/
def otherExtremum (cmp : K → K → ℤ) (bh : BinHeap K V) : Option (ℤ × Option (K × V)) :=
  match bh.mode with
  | .max => binheapMinimum cmp bh
  | .min => binheapMaximum cmp bh

/-- `binheap_delete_minimum` of a heap that is organised for its maximum, and
`binheap_delete_maximum` of the others. -/
def deleteOtherExtremum (cmp : K → K → ℤ) (bh : BinHeap K V) :
    Option (BinHeap K V × ℤ × Option V) :=
  match bh.mode with
  | .max => binheapDeleteMinimum cmp bh
  | .min => binheapDeleteMaximum cmp bh

/-- The extreme item of the other end is reported, if there is any item. -/
def ReportsOther (c : Comparator K) (bh : BinHeap K V) : Prop :=
  (contents bh = 0 ∧ otherExtremum c.cmp bh = some (-1, none)) ∨
    ∃ i, IsExtremum c (opposite bh.mode) (contents bh) i ∧
      otherExtremum c.cmp bh = some (0, some i)

/-- A deletion at the other end takes an extreme item, if there is any item. -/
def DeletesOther (c : Comparator K) (bh : BinHeap K V) : Prop :=
  ∃ bh' o, deleteOtherExtremum c.cmp bh = some (bh', o) ∧
    ((o = (-1, none) ∧ contents bh = 0 ∧ bh' = bh) ∨
      Removes (IsExtremum c (opposite bh.mode) (contents bh)) (contents bh) o (contents bh'))

theorem otherExtremum_eq (cmp : K → K → ℤ) (bh : BinHeap K V) :
    otherExtremum cmp bh = peekExtremum cmp bh (opposite bh.mode) := by
  rw [otherExtremum]
  cases bh.mode with
  | max => rfl
  | min => rfl

theorem deleteOtherExtremum_eq (cmp : K → K → ℤ) (bh : BinHeap K V) :
    deleteOtherExtremum cmp bh = deleteExtremum cmp bh (opposite bh.mode) := by
  rw [deleteOtherExtremum]
  cases bh.mode with
  | max => rfl
  | min => rfl

theorem extreme_of_isExtremum (hn : bh.nodes a = some n)
    (h : IsExtremum c side (contents bh) (item n)) : Extreme c.cmp side bh.nodes a := by
  intro b hb k l hk hl
  obtain ⟨m, hm⟩ := Heap.exists_of_mem_live hb
  rw [keyOf_eq hn] at hk
  rw [keyOf_eq hm] at hl
  cases hk
  cases hl
  exact h.2 (item m) (Heap.mem_bag_of_eq_some hm)

theorem Consistent.other_correct_iff (h : Consistent c bh) :
    OppositeLosesNone c.cmp bh ↔ ReportsOther c bh ∧ DeletesOther c bh := by
  obtain ⟨⟨node, i⟩, hget, hfinds⟩ := getExtremum_finds c h.ordered h.headTop (opposite bh.mode)
  obtain ⟨bh', o, hdelete, -, -, hbag⟩ := deleteExtremum_of_finds h hget hfinds
  rw [ReportsOther, DeletesOther, otherExtremum_eq, deleteOtherExtremum_eq]
  cases node with
  | none =>
      have hempty := hfinds.none rfl
      have hzero : contents bh = 0 := Heap.bag_eq_zero_iff.mpr hempty
      have hnil : bh.trees = [] := by
        rw [List.eq_nil_iff_forall_not_mem]
        intro r hr
        exact absurd (h.ordered.trees_live r hr) (hempty ▸ Finset.notMem_empty r)
      have hroot : chosenRoot c.cmp (opposite bh.mode) bh = none := by
        simp [chosenRoot, binheapMaxmin_nil bh c.cmp _ hnil]
      refine iff_of_true (by rw [OppositeLosesNone, hroot]; trivial) ⟨Or.inl ⟨hzero, ?_⟩, ?_⟩
      · simp [peekExtremum, hget]
      · exact ⟨bh, (-1, none), by simp [deleteExtremum, hget], Or.inl ⟨rfl, hzero, rfl⟩⟩
  | some l =>
      obtain ⟨n, hn⟩ := Heap.exists_of_mem_live (hfinds.mem l rfl)
      have hpeek : peekExtremum c.cmp bh (opposite bh.mode) = some (0, some (item n)) := by
        simp [peekExtremum, hget, hn, item]
      rw [getExtremum_losesNone_iff h hget, hpeek]
      constructor
      · intro hext
        have htop := isExtremum_of_above hext hn
        refine ⟨Or.inr ⟨item n, htop, rfl⟩, bh', o, hdelete, Or.inr ?_⟩
        rcases hbag with ⟨-, hzero, -⟩ | hremoves
        · have hmem := htop.1
          rw [hzero] at hmem
          exact absurd hmem (Multiset.notMem_zero _)
        · refine hremoves.imp ?_
          rintro j ⟨b, m, heq, hm, rfl⟩
          cases heq
          rw [hn] at hm
          cases hm
          exact htop
      · rintro ⟨⟨-, hnone⟩ | ⟨j, hj, heq⟩, -⟩
        · cases hnone
        · cases heq
          exact extreme_of_isExtremum hn hj

/-- In every reachable heap, the other end is answered for correctly, by reports and by
deletions, exactly if the search for it loses nothing. -/
theorem other_end_correct_iff (c : Comparator K) (mode : BinheapMode)
    (ops : List (BinheapOp K V)) :
    ∃ bh outs, runSteps (stepOp c.cmp) (binheapCreate mode) ops = some (bh, outs) ∧
      bh.mode = mode ∧
      (OppositeLosesNone c.cmp bh ↔ ReportsOther c bh ∧ DeletesOther c bh) := by
  obtain ⟨bh, outs, hrun, -, h, hmode, -⟩ := binheap_refines_bag c mode ops
  exact ⟨bh, outs, hrun, hmode, h.other_correct_iff⟩

/-- Of the roots `3` and `5` the search takes the lesser one, and does not see the `0`
below the other one. -/
theorem minimum_below_other_root :
    ¬ ∃ bh outs, runSteps (stepOp natComparator.cmp) (binheapCreate .max)
        [.insert 5 (), .insert 0 (), .insert 3 ()] = some (bh, outs) ∧
      ReportsOther natComparator.toComparator bh := by
  rintro ⟨bh, outs, hrun, hreports⟩
  have hanswer : (runSteps (stepOp natComparator.cmp) (binheapCreate .max)
      [.insert 5 (), .insert 0 (), .insert 3 ()]).map
        (fun r => (otherExtremum natComparator.cmp r.1, decide ((0, ()) ∈ contents r.1))) =
      some (some (0, some (3, ())), true) := by
    decide
  rw [hrun, Option.map_some] at hanswer
  simp only [Option.some.injEq, Prod.mk.injEq, decide_eq_true_eq] at hanswer
  obtain ⟨hreport, hmem⟩ := hanswer
  rcases hreports with ⟨-, hnone⟩ | ⟨i, hi, hsome⟩
  · rw [hreport] at hnone
    cases hnone
  · rw [hreport] at hsome
    cases hsome
    have hmode : bh.mode = .max := by
      have hmodes : (runSteps (stepOp natComparator.cmp) (binheapCreate .max)
          [.insert 5 (), .insert 0 (), .insert 3 ()]).map (fun r => r.1.mode) = some .max := by
        decide
      rw [hrun] at hmodes
      exact Option.some.inj hmodes
    rw [hmode] at hi
    exact absurd (hi.2 _ hmem) (by decide)

/-! ## The search for a key -/

/-- The node has a key that is equal to the given one. -/
def HasKey (cmp : K → K → ℤ) (key : K) (nodes : Heap (BinomialTreeNode K V)) (a : Addr) : Prop :=
  ∃ k, keyOf nodes a = some k ∧ cmp k key = 0

instance decidableHasKey (cmp : K → K → ℤ) (key : K) (nodes : Heap (BinomialTreeNode K V)) :
    DecidablePred (HasKey cmp key nodes) := fun a =>
  match h : keyOf nodes a with
  | none => isFalse (by simp [HasKey, h])
  | some k => decidable_of_iff (cmp k key = 0) (by simp [HasKey, h])

/-- The tree that the search takes among several ones, if any. -/
def closestOf (cmp : K → K → ℤ) (mode : BinheapMode) (key : K)
    (nodes : Heap (BinomialTreeNode K V)) (l : List Addr) : Option Addr := do
  let candidates ← l.mapM (withKey nodes)
  let tree ← closestTo cmp mode key candidates none
  some tree.1

/-- The child the search goes to.  It stops at the key. -/
def keyChild (cmp : K → K → ℤ) (mode : BinheapMode) (key : K)
    (nodes : Heap (BinomialTreeNode K V)) (a : Addr) : Option Addr :=
  if HasKey cmp key nodes a then none
  else closestOf cmp mode key nodes (childrenOf nodes a)

/-- The search for a key never leaves all items with the key behind in a branch it does not
take. -/
def KeyLosesNone (cmp : K → K → ℤ) (bh : BinHeap K V) (key : K) : Prop :=
  SearchLosesNone bh.nodes (HasKey cmp key bh.nodes) (keyChild cmp bh.mode key bh.nodes)
    bh.trees (closestOf cmp bh.mode key bh.nodes bh.trees)

/-- A deletion by key removes one item with the key if there is one, and fails without an
effect otherwise. -/
def DeletesKey (c : Comparator K) (bh : BinHeap K V) (key : K) : Prop :=
  ∃ bh' o, binheapDelete c.cmp bh key = some (bh', o) ∧
    ((∃ i ∈ contents bh, c.cmp i.1 key = 0) →
      Removes (fun i => c.cmp i.1 key = 0) (contents bh) o (contents bh')) ∧
    ((¬ ∃ i ∈ contents bh, c.cmp i.1 key = 0) → o = (-1, none) ∧ bh' = bh)

theorem hasKey_iff {cmp : K → K → ℤ} {key : K} (hn : nodes a = some n) :
    HasKey cmp key nodes a ↔ cmp n.key key = 0 := by
  rw [HasKey, keyOf_eq hn]
  constructor
  · rintro ⟨k, hk, hzero⟩
    cases hk
    exact hzero
  · exact fun hzero => ⟨n.key, rfl, hzero⟩

theorem closestOf_eq {cmp : K → K → ℤ} {key : K} {l : List Addr} {cands : List (Addr × K)}
    (hcands : l.mapM (withKey nodes) = some cands) :
    closestOf cmp mode key nodes l = (closestTo cmp mode key cands none).map Prod.fst := by
  rw [closestOf, hcands]
  cases hclose : closestTo cmp mode key cands none with
  | none => simp [hclose]
  | some d => simp [hclose]

/-- Nothing is chosen only if no candidate has precedence over the key. -/
theorem not_hasPrecedence_of_closestTo {cmp : K → K → ℤ} {key : K} :
    ∀ {l : List (Addr × K)} {best : Option (Addr × K)}, closestTo cmp mode key l best = none →
      best = none ∧ ∀ d ∈ l, ¬ HasPrecedence cmp mode d.2 key := by
  intro l
  induction l with
  | nil => exact fun h => ⟨h, fun _ hd => nomatch hd⟩
  | cons e l ih =>
      intro best h
      unfold closestTo at h
      by_cases hprec : HasPrecedence cmp mode e.2 key
      · rw [if_pos hprec] at h
        split at h
        · split at h
          · exact absurd (ih h).1 nofun
          · exact absurd (ih h).1 nofun
        · exact absurd (ih h).1 nofun
      · rw [if_neg hprec] at h
        refine ⟨(ih h).1, fun d hd => ?_⟩
        rcases List.mem_cons.mp hd with rfl | hd
        · exact hprec
        · exact (ih h).2 d hd

/-- Nothing is taken only if no tree has precedence over the key. -/
theorem not_hasPrecedence_of_closestOf {cmp : K → K → ℤ} {key : K} {l : List Addr}
    (hlive : ∀ a ∈ l, a ∈ nodes.live) (h : closestOf cmp mode key nodes l = none) :
    ∀ a ∈ l, ∀ k, keyOf nodes a = some k → ¬ HasPrecedence cmp mode k key := by
  have hsome : ∀ a ∈ l, (withKey nodes a).isSome := by
    intro a ha
    rw [withKey, Option.isSome_map]
    exact Heap.mem_live.mp (hlive a ha)
  obtain ⟨cands, hcands, hmap⟩ := mapM_of_isSome hsome
  have hclose : closestTo cmp mode key cands none = none := by
    cases hc : closestTo cmp mode key cands none with
    | none => rfl
    | some d => simp [closestOf, hcands, hc] at h
  intro a ha k hk
  obtain ⟨n, hn⟩ := Heap.exists_of_mem_live (hlive a ha)
  have hmem : some (a, n.key) ∈ l.map (withKey nodes) :=
    List.mem_map.mpr ⟨a, ha, by rw [withKey, hn, Option.map_some]⟩
  rw [← hmap, List.mem_map] at hmem
  obtain ⟨d, hd, heq⟩ := hmem
  rw [keyOf_eq hn] at hk
  cases heq
  cases hk
  exact (not_hasPrecedence_of_closestTo hclose).2 _ hd

theorem Ordered.above_subtree (h : Ordered c mode nodes trees) : ∀ (depth : ℕ) (a : Addr),
    a ∈ nodes.live → ∀ b ∈ subtree nodes depth a, b ∈ nodes.live ∧ Above c.cmp mode nodes a b := by
  intro depth
  induction depth with
  | zero => exact fun _ _ _ hb => nomatch hb
  | succ depth ih =>
      intro a ha b hb
      rcases List.mem_cons.mp hb with rfl | hb
      · exact ⟨ha, above_refl c b⟩
      · obtain ⟨d, hd, hb⟩ := List.mem_flatMap.mp hb
        have hdlive := h.forest.mem_of_kid ha hd
        obtain ⟨hblive, habove⟩ := ih d hdlive b hb
        exact ⟨hblive, above_trans c hdlive (h.above a ha d hd) habove⟩

theorem hasPrecedence_of_cmp_eq_zero {k key : K} (h : c.cmp k key = 0) :
    HasPrecedence c.cmp mode k key := by
  cases mode with
  | max => exact Int.le_of_eq h.symm
  | min => exact Int.le_of_eq h

/-- If no tree is taken, none holds the key. -/
theorem not_holds_of_closestOf (h : Ordered c mode nodes trees) {key : K} {l : List Addr}
    (hlive : ∀ a ∈ l, a ∈ nodes.live) (hnone : closestOf c.cmp mode key nodes l = none)
    (depth : ℕ) : ∀ a ∈ l, ¬ Holds nodes (HasKey c.cmp key nodes) depth a := by
  rintro a ha ⟨b, hb, k, hk, hzero⟩
  obtain ⟨n, hn⟩ := Heap.exists_of_mem_live (hlive a ha)
  obtain ⟨-, habove⟩ := h.above_subtree depth a (hlive a ha) b hb
  have hover := habove n.key k (keyOf_eq hn) hk
  exact not_hasPrecedence_of_closestOf hlive hnone a ha n.key (keyOf_eq hn)
    (hasPrecedence_trans c hover (hasPrecedence_of_cmp_eq_zero hzero))

theorem closestOf_mem {cmp : K → K → ℤ} {key : K} {l : List Addr} {d : Addr}
    (hlive : ∀ a ∈ l, a ∈ nodes.live) (h : closestOf cmp mode key nodes l = some d) : d ∈ l := by
  obtain ⟨cands, hcands, hmem⟩ := withKey_candidates hlive
  rw [closestOf_eq hcands] at h
  obtain ⟨e, he, rfl⟩ := Option.map_eq_some_iff.mp h
  exact hmem e ((closestTo_mem cmp mode key cands none e he).resolve_right nofun)

theorem key_descends (h : Ordered c mode nodes trees) (key : K) :
    Descends nodes (HasKey c.cmp key nodes) (keyChild c.cmp mode key nodes) where
  child := by
    intro a d hd
    by_cases hkey : HasKey c.cmp key nodes a
    · rw [keyChild, if_pos hkey] at hd
      cases hd
    · rw [keyChild, if_neg hkey] at hd
      refine closestOf_mem (fun b hb => ?_) hd
      cases hn : nodes a with
      | none =>
          rw [childrenOf, hn] at hb
          cases hb
      | some n => exact h.forest.mem_of_kid (Heap.mem_live_of_eq_some hn) hb
  down := by
    intro a d hd hkey
    rw [keyChild, if_pos hkey] at hd
    cases hd
  stop := by
    intro a ha hnone depth hholds
    by_contra hkey
    rw [keyChild, if_neg hkey] at hnone
    cases depth with
    | zero =>
        obtain ⟨b, hb, -⟩ := hholds
        cases hb
    | succ depth =>
        obtain ⟨d, hd, hd'⟩ := (holds_succ_iff.mp hholds).resolve_left hkey
        exact not_holds_of_closestOf h (fun b hb => h.forest.mem_of_kid ha hb) hnone depth d hd hd'

/-- The search loop goes the way down from a node, and succeeds if there is the key at its
end. -/
theorem follow_of_searchKey {cmp : K → K → ℤ} {key : K} :
    ∀ {fuel : ℕ} {a : Addr} {r : Option Addr}, searchKey cmp mode key nodes fuel a = some r →
      ∃ l, follow (keyChild cmp mode key nodes) fuel a = some l ∧
        r = if HasKey cmp key nodes l then some l else none := by
  intro fuel
  induction fuel with
  | zero => exact fun h => nomatch h
  | succ fuel ih =>
      intro a r h
      rw [searchKey] at h
      obtain ⟨n, hn, h⟩ := Option.bind_eq_some_iff.mp h
      rw [follow]
      by_cases hkey : cmp n.key key = 0
      · rw [if_pos hkey] at h
        cases h
        have hhas := (hasKey_iff hn).mpr hkey
        have hnext : keyChild cmp mode key nodes a = none := by rw [keyChild, if_pos hhas]
        rw [hnext]
        exact ⟨a, rfl, by rw [if_pos hhas]⟩
      · rw [if_neg hkey] at h
        have hnot := mt (hasKey_iff hn).mp hkey
        obtain ⟨cands, hcands, h⟩ := Option.bind_eq_some_iff.mp h
        have hnext : keyChild cmp mode key nodes a =
            (closestTo cmp mode key cands none).map Prod.fst := by
          rw [keyChild, if_neg hnot, childrenOf_eq hn, closestOf_eq hcands]
        rw [hnext]
        cases hclose : closestTo cmp mode key cands none with
        | none =>
            rw [hclose] at h
            cases h
            exact ⟨a, rfl, by rw [if_neg hnot]⟩
        | some d =>
            rw [hclose] at h
            exact ih h

theorem Consistent.deletesKey_iff (h : Consistent c bh) (key : K) :
    KeyLosesNone c.cmp bh key ↔ DeletesKey c bh key := by
  obtain ⟨bh', o, hrun, -, -, hbag⟩ := binheapDelete_spec h key
  have hany : (∃ i ∈ contents bh, c.cmp i.1 key = 0) ↔
      ∃ b ∈ bh.trees.flatMap (subtree bh.nodes bh.nodes.brk), HasKey c.cmp key bh.nodes b := by
    have hperm := flatMap_subtree_perm h.ordered.forest
    constructor
    · rintro ⟨i, hi, hzero⟩
      obtain ⟨b, m, hm, rfl⟩ := Heap.exists_of_mem_bag hi
      refine ⟨b, hperm.mem_iff.mpr (Finset.mem_toList.mpr (Heap.mem_live_of_eq_some hm)), ?_⟩
      exact (hasKey_iff hm).mpr hzero
    · rintro ⟨b, hb, hkey⟩
      obtain ⟨m, hm⟩ := Heap.exists_of_mem_live (Finset.mem_toList.mp (hperm.mem_iff.mp hb))
      exact ⟨item m, Heap.mem_bag_of_eq_some hm, (hasKey_iff hm).mp hkey⟩
  have hlive := h.ordered.trees_live
  obtain ⟨cands, hcands, -⟩ := withKey_candidates hlive
  have hroot : closestOf c.cmp bh.mode key bh.nodes bh.trees = _ := closestOf_eq hcands
  cases hclose : closestTo c.cmp bh.mode key cands none with
  | none =>
      rw [hclose, Option.map_none] at hroot
      have hnot : ¬ ∃ i ∈ contents bh, c.cmp i.1 key = 0 := by
        rw [hany]
        rintro ⟨b, hb, hkey⟩
        obtain ⟨t, ht, hb⟩ := List.mem_flatMap.mp hb
        exact not_holds_of_closestOf h.ordered hlive hroot _ t ht ⟨b, hb, hkey⟩
      refine iff_of_true (by rw [KeyLosesNone, hroot]; trivial) ?_
      refine ⟨bh, (-1, none), ?_, fun hyes => absurd hyes hnot, fun _ => ⟨rfl, rfl⟩⟩
      simp [binheapDelete, hcands, hclose]
  | some d =>
      rw [hclose, Option.map_some] at hroot
      have hmem := closestOf_mem hlive hroot
      have hsearch := hrun
      rw [binheapDelete, hcands] at hsearch
      simp only [Option.bind_eq_bind, Option.bind_some, hclose] at hsearch
      obtain ⟨r, hr, hsearch⟩ := Option.bind_eq_some_iff.mp hsearch
      obtain ⟨l, hfollow, rfl⟩ := follow_of_searchKey hr
      rw [KeyLosesNone, hroot, searchLosesNone_iff (key_descends h.ordered key)
        (fun a ha d hd => h.ordered.forest.mem_of_kid ha hd) hmem (hlive _ hmem) hfollow, ← hany]
      by_cases hkey : HasKey c.cmp key bh.nodes l
      · rw [if_pos hkey] at hsearch
        obtain ⟨n, hn, hsearch⟩ := Option.bind_eq_some_iff.mp hsearch
        obtain ⟨bh₁, -, hsearch⟩ := Option.bind_eq_some_iff.mp hsearch
        cases hsearch
        have hsome : ∃ i ∈ contents bh, c.cmp i.1 key = 0 :=
          ⟨item n, Heap.mem_bag_of_eq_some hn, (hasKey_iff hn).mp hkey⟩
        refine iff_of_true (fun _ => hkey) ⟨_, _, hrun, fun _ => ?_, fun hnot => absurd hsome hnot⟩
        exact hbag.resolve_left fun hfail => nomatch hfail.1
      · rw [if_neg hkey] at hsearch
        cases hsearch
        constructor
        · intro htarget
          have hnot := mt htarget hkey
          exact ⟨_, _, hrun, fun hyes => absurd hyes hnot, fun _ => ⟨rfl, rfl⟩⟩
        · rintro ⟨bh₁, o₁, hrun₁, hremoves, -⟩ hsome
          rw [hrun] at hrun₁
          cases hrun₁
          obtain ⟨i, -, ho, -⟩ := hremoves hsome
          cases ho

end BinHeap
end LibHL
