import LibHL.Support.SearchTree

/-!
# Searching an ordered tree

A search goes down from the root and ends at a node with an equal key or at a null pointer.
In an ordered tree it finds what a look through all the keys would find.  What a change at
the place where it ends does to the results of other searches is a fact about lists: the
part of the list that belongs to the place is exchanged.
-/

namespace LibHL

open PTree

section Comparator

variable {K : Type*} (c : Comparator K) {s : Side} {a b d : K}

theorem Comparator.self_eq_zero (a : K) : c.cmp a a = 0 :=
  le_antisymm (c.refl a) ((c.dual a a).mpr (c.refl a))

theorem Comparator.zero_comm : c.cmp a b = 0 ↔ c.cmp b a = 0 := by
  have hsymm : ∀ a b : K, c.cmp a b = 0 → c.cmp b a = 0 := by
    intro a b h
    exact le_antisymm ((c.dual a b).mp (ge_of_eq h)) ((c.dual b a).mpr (le_of_eq h))
  exact ⟨hsymm a b, hsymm b a⟩

theorem Comparator.zero_trans (h₁ : c.cmp a b = 0) (h₂ : c.cmp b d = 0) : c.cmp a d = 0 :=
  le_antisymm (c.trans a b d (le_of_eq h₁) (le_of_eq h₂)) (c.trans_ge (ge_of_eq h₁) (ge_of_eq h₂))

theorem Comparator.toward_congr (h : c.cmp a b = 0) :
    Toward s (c.cmp a d) ↔ Toward s (c.cmp b d) := by
  have himp : ∀ a b : K, c.cmp a b = 0 → ∀ s, Toward s (c.cmp a d) → Toward s (c.cmp b d) := by
    intro a b h s hs
    have hba : c.cmp b a = 0 := c.zero_comm.mp h
    by_contra hnot
    by_cases hzero : c.cmp b d = 0
    · rw [c.zero_trans h hzero] at hs
      exact not_toward_zero s hs
    · have hother : Toward s.other (c.cmp b d) := toward_or s hzero hnot
      have hdb : Toward s (c.cmp d b) := by
        rw [c.toward_dual]
        exact hother
      have hab := c.toward_trans hs hdb
      rw [h] at hab
      exact not_toward_zero s hab
  exact ⟨himp a b h s, himp b a (c.zero_comm.mp h) s⟩

end Comparator

/-! ## The search -/

namespace PTree

variable {α : Type*}

/-- Where a search ends: `c` compares the nodes with what is sought. -/
def seek (c : α → ℤ) : PTree α → List (Frame α) → PTree α × List (Frame α)
  | leaf, fs => (leaf, fs)
  | node l a x r, fs =>
      if c x = 0 then (node l a x r, fs)
      else if 0 < c x then seek c l (⟨.left, a, x, r⟩ :: fs)
      else seek c r (⟨.right, a, x, l⟩ :: fs)

/-- What the root stores. -/
def rootData : PTree α → Option α
  | leaf => none
  | node _ _ x _ => some x

@[simp] theorem rootData_join (s : Side) (t u : PTree α) (a : Addr) (x : α) :
    (join s t u a x).rootData = some x := by
  cases s <;> rfl

variable {c : α → ℤ} {s : Side} {t u : PTree α} {a : Addr} {x : α} {fs gs : List (Frame α)}

theorem seek_join_of_eq (hx : c x = 0) :
    seek c (join s t u a x) fs = (join s t u a x, fs) := by
  cases s <;> exact if_pos hx

theorem seek_join (hx : Toward s.other (c x)) :
    seek c (join s t u a x) fs = seek c t (⟨s, a, x, u⟩ :: fs) := by
  cases s
  · have hpos : 0 < c x := hx
    rw [join, seek, if_neg (ne_of_gt hpos), if_pos hpos]
  · have hneg : c x < 0 := hx
    rw [join, seek, if_neg (ne_of_lt hneg), if_neg (not_lt.mpr (le_of_lt hneg))]

theorem plug_seek (t : PTree α) (fs : List (Frame α)) :
    plug (seek c t fs).1 (seek c t fs).2 = plug t fs := by
  induction t generalizing fs with
  | leaf => rfl
  | node l a x r ihl ihr =>
      rw [seek]
      by_cases hzero : c x = 0
      · rw [if_pos hzero]
      · rw [if_neg hzero]
        by_cases hpos : 0 < c x
        · rw [if_pos hpos]
          exact ihl _
        · rw [if_neg hpos]
          exact ihr _

/-- The search ends at a null pointer or at a node that compares as equal. -/
theorem seek_cases (t : PTree α) (fs : List (Frame α)) :
    (seek c t fs).1 = leaf ∨
      ∃ l a x r, (seek c t fs).1 = node l a x r ∧ c x = 0 := by
  induction t generalizing fs with
  | leaf => exact Or.inl rfl
  | node l a x r ihl ihr =>
      rw [seek]
      by_cases hzero : c x = 0
      · rw [if_pos hzero]
        exact Or.inr ⟨l, a, x, r, rfl, hzero⟩
      · rw [if_neg hzero]
        by_cases hpos : 0 < c x
        · rw [if_pos hpos]
          exact ihl _
        · rw [if_neg hpos]
          exact ihr _

theorem seek_plug (h : ∀ f ∈ fs, Toward f.side.other (c f.data)) :
    seek c (plug t fs) gs = seek c t (fs ++ gs) := by
  induction fs generalizing t with
  | nil => rfl
  | cons f fs ih =>
      rw [plug, ih fun g hg => h g (List.mem_cons_of_mem f hg)]
      exact seek_join (h f List.mem_cons_self)

theorem toward_branch {z : ℤ} (hz : z ≠ 0) :
    Toward (if 0 < z then Side.left else Side.right).other z := by
  by_cases hpos : 0 < z
  · rw [if_pos hpos]
    exact hpos
  · rw [if_neg hpos]
    exact lt_of_le_of_ne (not_lt.mp hpos) hz

end PTree

section Ordered

variable {α K : Type*} {c : Comparator K} {key : α → K} {t : PTree α} {fs : List (Frame α)}
  {k : K} {x y : α}

theorem around_seek (hord : Ordered c key (plug t fs)) (hk : Around c key k fs) :
    Around c key k (seek (fun x => c.cmp (key x) k) t fs).2 := by
  induction t generalizing fs with
  | leaf => exact hk
  | node l a x r ihl ihr =>
      rw [seek]
      by_cases hzero : c.cmp (key x) k = 0
      · rw [if_pos hzero]
        exact hk
      · rw [if_neg hzero]
        by_cases hpos : 0 < c.cmp (key x) k
        · rw [if_pos hpos]
          have hbelow : Ordered c key (plug l (⟨.left, a, x, r⟩ :: fs)) := hord
          exact ihl hbelow (around_down (s := .left) hord hk (c.toward_dual.mpr hpos))
        · rw [if_neg hpos]
          have hbelow : Ordered c key (plug r (⟨.right, a, x, l⟩ :: fs)) := hord
          refine ihr hbelow (around_down (s := .right) hord hk (c.toward_dual.mpr ?_))
          exact lt_of_le_of_ne (not_lt.mp hpos) hzero

theorem ne_zero_of_toward {s : Side} {z : ℤ} (h : Toward s z) : z ≠ 0 := by
  rintro rfl
  exact not_toward_zero s h

theorem ne_of_around (hk : Around c key k fs) (hy : y ∈ (plug t fs).values) :
    y ∈ t.values ∨ c.cmp (key y) k ≠ 0 := by
  induction fs generalizing t with
  | nil => exact Or.inl hy
  | cons f fs ih =>
      obtain ⟨⟨hf, hsib⟩, hfs⟩ := around_cons.mp hk
      rcases ih hfs hy with hmem | hne
      · rcases mem_values_join.mp hmem with hmem | rfl | hmem
        · exact Or.inl hmem
        · exact Or.inr fun hzero => ne_zero_of_toward hf (c.zero_comm.mp hzero)
        · exact Or.inr fun hzero => ne_zero_of_toward (hsib y hmem) (c.zero_comm.mp hzero)
      · exact Or.inr hne

/-- In an ordered tree the search for the key of a node ends there. -/
theorem seek_node {s : Side} {t u : PTree α} {a : Addr}
    (hord : Ordered c key (plug (join s t u a x) fs)) (hk : c.cmp (key x) k = 0) :
    seek (fun x => c.cmp (key x) k) (plug (join s t u a x) fs) [] = (join s t u a x, fs) := by
  obtain ⟨-, -, haround⟩ := (ordered_plug _ _).mp hord
  have hx := haround x (mem_values_join.mpr (Or.inr (Or.inl rfl)))
  rw [seek_plug, List.append_nil]
  · exact seek_join_of_eq (c := fun x => c.cmp (key x) k) hk
  · intro f hf
    exact c.toward_dual.mp ((c.toward_congr hk).mp (hx f hf).1)

end Ordered

/-! ## The list of a tree around a place -/

namespace PTree

variable {α : Type*}

theorem exists_values_plug (fs : List (Frame α)) :
    ∃ A B : List α, ∀ t : PTree α, (plug t fs).values = A ++ (t.values ++ B) := by
  induction fs with
  | nil => exact ⟨[], [], fun t => (List.append_nil _).symm⟩
  | cons f fs ih =>
      obtain ⟨A, B, hAB⟩ := ih
      cases hside : f.side with
      | left =>
          refine ⟨A, f.data :: f.sibling.values ++ B, fun t => ?_⟩
          rw [plug, hAB, hside, join, values, List.append_assoc]
      | right =>
          refine ⟨A ++ (f.sibling.values ++ [f.data]), B, fun t => ?_⟩
          rw [plug, hAB, hside, join, values]
          simp only [List.append_assoc, List.cons_append, List.nil_append]

end PTree

/-! ## Lists without one element -/

section Without

variable {α β : Type*} {a : α} {l l' : List α}

/-- The second list is the first one without one element, which is `a`. -/
def Without (a : α) (l l' : List α) : Prop := ∃ A B, l = A ++ a :: B ∧ l' = A ++ B

theorem without_middle (a : α) (A B : List α) : Without a (A ++ a :: B) (A ++ B) :=
  ⟨A, B, rfl, rfl⟩

theorem Without.around (h : Without a l l') (A B : List α) :
    Without a (A ++ (l ++ B)) (A ++ (l' ++ B)) := by
  obtain ⟨C, D, rfl, rfl⟩ := h
  refine ⟨A ++ C, D ++ B, ?_, ?_⟩
  · simp only [List.append_assoc, List.cons_append]
  · simp only [List.append_assoc]

theorem Without.coe_eq (h : Without a l l') :
    (l : Multiset α) = a ::ₘ (l' : Multiset α) := by
  obtain ⟨A, B, rfl, rfl⟩ := h
  exact Multiset.coe_eq_coe.mpr List.perm_middle

end Without

/-! ## Handing a neighbour up -/

namespace Side

variable {α β : Type*} (s : Side)

/-- Two lists side by side, the first one on side `s`. -/
def append (A B : List α) : List α :=
  match s with
  | .left => A ++ B
  | .right => B ++ A

theorem append_other (A B : List α) : s.other.append A B = s.append B A := by
  cases s <;> rfl

theorem append_assoc (A B C : List α) :
    s.append (s.append A B) C = s.append A (s.append B C) := by
  cases s
  · exact List.append_assoc A B C
  · exact (List.append_assoc C B A).symm

theorem map_append (f : α → β) (A B : List α) :
    (s.append A B).map f = s.append (A.map f) (B.map f) := by
  cases s <;> exact List.map_append

theorem without_append (a : α) (A B : List α) :
    Without a (s.append A (s.append [a] B)) (s.append A B) := by
  cases s
  · exact ⟨A, B, rfl, rfl⟩
  · exact ⟨B, A, List.append_assoc B [a] A, rfl⟩

end Side

namespace PTree

variable {α β : Type*} {s : Side} {fs : List (Frame α)}

theorem values_join (s : Side) (t u : PTree α) (a : Addr) (x : α) :
    (join s t u a x).values = s.append t.values (s.append [x] u.values) := by
  cases s
  · rfl
  · exact (List.append_cons u.values x t.values)

/-- What is stored around a place that is always on the same side is on the other side of
it. -/
theorem exists_values_plug_of_side (hside : ∀ f ∈ fs, f.side = s) :
    ∃ B : List α, ∀ t : PTree α, (plug t fs).values = s.append t.values B := by
  induction fs with
  | nil =>
      refine ⟨[], fun t => ?_⟩
      cases s
      · exact (List.append_nil _).symm
      · rfl
  | cons f fs ih =>
      obtain ⟨B, hB⟩ := ih fun g hg => hside g (List.mem_cons_of_mem f hg)
      refine ⟨s.append (s.append [f.data] f.sibling.values) B, fun t => ?_⟩
      rw [plug, hB, hside f List.mem_cons_self, values_join, Side.append_assoc]

/-- A node takes over what its neighbour below stores, and the neighbour goes away: what
the node stored before is missing then. -/
theorem without_neighbour (g : α → β) {path : List (Frame α)} {u v : PTree α} {x y : Addr}
    {d d' e : α} (hside : ∀ f ∈ path, f.side = s.other) (hd' : g d' = g e) :
    Without (g d) ((join s (plug (join s.other .leaf v y e) path) u x d).values.map g)
      ((join s (plug v path) u x d').values.map g) := by
  obtain ⟨R, hR⟩ := exists_values_plug_of_side hside
  have hleaf : (join s.other (.leaf : PTree α) v y e).values = s.append v.values [e] := by
    rw [values_join, values, Side.append_other, Side.append_other]
    cases s
    · exact List.append_nil _
    · rfl
  simp only [values_join, hR, hleaf, Side.append_other, Side.map_append, List.map_cons,
    List.map_nil, hd']
  have hmoved : s.append (s.append (R.map g) (s.append (v.values.map g) [g e]))
      (u.values.map g) =
        s.append (s.append (R.map g) (v.values.map g)) (s.append [g e] (u.values.map g)) := by
    rw [← Side.append_assoc, Side.append_assoc]
  rw [← hmoved]
  exact s.without_append (g d) _ _

end PTree

namespace PTree

/-! ## The last node on a side -/

variable {α : Type*} {s : Side} {t u v : PTree α} {a y : Addr} {x e : α} {fs : List (Frame α)}

/-- The last node on a side: what it stores, and its subtree on the other side. -/
def last (s : Side) : PTree α → Option (α × PTree α)
  | leaf => none
  | node l _ x r =>
      match s with
      | .left => (last s l).or (some (x, r))
      | .right => (last s r).or (some (x, l))

theorem last_join : (join s t u a x).last s = (t.last s).or (some (x, u)) := by
  cases s <;> rfl

theorem last_plug {r : α × PTree α} (hside : ∀ f ∈ fs, f.side = s) (h : t.last s = some r) :
    (plug t fs).last s = some r := by
  induction fs generalizing t with
  | nil => exact h
  | cons f fs ih =>
      refine ih (fun g hg => hside g (List.mem_cons_of_mem f hg)) ?_
      rw [hside f List.mem_cons_self, last_join, h, Option.some_or]

theorem last_plug_join (hside : ∀ f ∈ fs, f.side = s) :
    (plug (join s leaf v y e) fs).last s = some (e, v) :=
  last_plug hside last_join

theorem plug_ne_leaf (h : t ≠ leaf) (fs : List (Frame α)) : plug t fs ≠ leaf := by
  induction fs generalizing t with
  | nil => exact h
  | cons f fs ih => exact ih (join_ne_leaf f.side t f.sibling f.addr f.data)

theorem sub_plug_eq_leaf (hside : ∀ f ∈ fs, f.side = s) :
    (plug (join s leaf v y e) fs).sub s = leaf ↔ fs = [] := by
  induction fs using List.reverseRecOn with
  | nil => exact iff_of_true (sub_join s leaf v y e) rfl
  | append_singleton fs f _ =>
      have hf : f.side = s := hside f (List.mem_append_right _ List.mem_cons_self)
      rw [plug_append, plug, plug, hf, sub_join]
      refine iff_of_false (plug_ne_leaf (join_ne_leaf s leaf v y e) fs) ?_
      exact List.append_ne_nil_of_right_ne_nil _ (List.cons_ne_nil f [])

end PTree

section Lookup

variable {α K : Type*} {c : Comparator K} {key : α → K} {A B : List α} {x y : α}

/-- What is first found with a key. -/
def lookup (c : Comparator K) (key : α → K) (l : List α) (k : K) : Option α :=
  l.find? fun x => c.cmp (key x) k = 0

/-- The keys are strictly ascending. -/
def Ascending (c : Comparator K) (key : α → K) (l : List α) : Prop :=
  l.Pairwise fun x y => c.cmp (key x) (key y) < 0

theorem ne_of_ascending (h : Ascending c key (A ++ x :: B)) (hy : y ∈ A ∨ y ∈ B) :
    c.cmp (key y) (key x) ≠ 0 := by
  obtain ⟨-, hB, hA⟩ := List.pairwise_append.mp h
  rcases hy with hy | hy
  · exact ne_of_lt (hA y hy x List.mem_cons_self)
  · have hlt := (List.pairwise_cons.mp hB).1 y hy
    exact ne_of_gt ((c.lt_iff _ _).mp hlt)

theorem lookup_eq_none {l : List α} {k : K} :
    lookup c key l k = none ↔ ∀ x ∈ l, c.cmp (key x) k ≠ 0 := by
  rw [lookup, List.find?_eq_none]
  simp only [decide_eq_true_eq, ne_eq]

/-- In an ascending list a key that is equal to that of an element is not found
elsewhere. -/
theorem lookup_around_eq_none (h : Ascending c key (A ++ x :: B)) {k : K}
    (hk : c.cmp (key x) k = 0) : lookup c key (A ++ B) k = none := by
  refine lookup_eq_none.mpr fun y hy hyk => ?_
  refine ne_of_ascending h (List.mem_append.mp hy) ?_
  exact c.zero_trans hyk (c.zero_comm.mp hk)

theorem lookup_middle (h : Ascending c key (A ++ x :: B)) (k : K) :
    lookup c key (A ++ x :: B) k =
      if c.cmp (key x) k = 0 then some x else lookup c key (A ++ B) k := by
  by_cases hk : c.cmp (key x) k = 0
  · have hnone := lookup_around_eq_none h hk
    rw [lookup, List.find?_append, Option.or_eq_none_iff] at hnone
    rw [if_pos hk, lookup, List.find?_append, hnone.1, Option.none_or]
    exact List.find?_cons_of_pos (decide_eq_true hk)
  · rw [if_neg hk, lookup, lookup, List.find?_append, List.find?_append,
      List.find?_cons_of_neg (by simpa using hk)]

theorem lookup_eq_some {l : List α} (h : Ascending c key l) {k : K} :
    lookup c key l k = some y ↔ y ∈ l ∧ c.cmp (key y) k = 0 := by
  constructor
  · intro hfound
    have hk := List.find?_some (p := fun x => decide (c.cmp (key x) k = 0)) hfound
    exact ⟨List.mem_of_find?_eq_some hfound, of_decide_eq_true hk⟩
  · rintro ⟨hy, hk⟩
    obtain ⟨A, B, rfl⟩ := List.append_of_mem hy
    rw [lookup_middle h, if_pos hk]

/-- An element more, wherever it is put. -/
theorem lookup_of_perm_cons {l l' : List α} (h : Ascending c key l) (h' : Ascending c key l')
    (hperm : l'.Perm (x :: l)) (k : K) :
    lookup c key l' k = if c.cmp (key x) k = 0 then some x else lookup c key l k := by
  obtain ⟨A, B, rfl⟩ := List.append_of_mem (hperm.symm.subset List.mem_cons_self)
  have hrest : (A ++ B).Perm l := (List.perm_cons x).mp (List.perm_middle.symm.trans hperm)
  have hasc : Ascending c key (A ++ B) :=
    h'.sublist (List.Sublist.append_left (List.sublist_cons_self x B) A)
  rw [lookup_middle h']
  refine congrArg _ (Option.ext fun y => ?_)
  rw [lookup_eq_some hasc, lookup_eq_some h, hrest.mem_iff]

theorem ascending_without (h : Ascending c key (A ++ x :: B)) : Ascending c key (A ++ B) :=
  h.sublist (List.Sublist.append_left (List.sublist_cons_self x B) A)

theorem ascending_exchange (h : Ascending c key (A ++ x :: B))
    (hy : c.cmp (key y) (key x) = 0) : Ascending c key (A ++ y :: B) := by
  obtain ⟨hA, hB, hAB⟩ := List.pairwise_append.mp h
  obtain ⟨hxB, hB⟩ := List.pairwise_cons.mp hB
  refine List.pairwise_append.mpr ⟨hA, List.pairwise_cons.mpr ⟨?_, hB⟩, ?_⟩
  · intro z hz
    exact (c.toward_congr (s := .left) hy).mpr (hxB z hz)
  · intro z hz w hw
    rcases List.mem_cons.mp hw with rfl | hw
    · have hzx : c.cmp (key z) (key x) < 0 := hAB z hz x List.mem_cons_self
      have hxz : Toward .right (c.cmp (key x) (key z)) := (c.lt_iff _ _).mp hzx
      exact (c.lt_iff _ _).mpr ((c.toward_congr (s := .right) hy).mpr hxz)
    · exact hAB z hz w (List.mem_cons_of_mem x hw)

theorem Without.ascending {l l' : List α} (hw : Without x l l') (h : Ascending c key l) :
    Ascending c key l' := by
  obtain ⟨A, B, rfl, rfl⟩ := hw
  exact ascending_without h

theorem Without.eq_filter {l l' : List α} (hw : Without x l l') (h : Ascending c key l) {k : K}
    (hk : c.cmp (key x) k = 0) : l' = l.filter fun y => c.cmp (key y) k ≠ 0 := by
  obtain ⟨A, B, rfl, rfl⟩ := hw
  have hkeep : ∀ y ∈ A ++ B, decide (c.cmp (key y) k ≠ 0) = true := by
    intro y hy
    refine decide_eq_true fun hyk => ?_
    refine ne_of_ascending h (List.mem_append.mp hy) ?_
    exact c.zero_trans hyk (c.zero_comm.mp hk)
  have hdrop : ¬ decide (c.cmp (key x) k ≠ 0) = true := by
    rw [decide_eq_true_eq]
    exact fun hne => hne hk
  rw [List.filter_append, List.filter_cons, if_neg hdrop, ← List.filter_append]
  exact (List.filter_eq_self.mpr hkeep).symm

theorem filter_of_lookup_eq_none {l : List α} {k : K} (h : lookup c key l k = none) :
    (l.filter fun y => c.cmp (key y) k ≠ 0) = l := by
  refine List.filter_eq_self.mpr fun y hy => ?_
  exact decide_eq_true (lookup_eq_none.mp h y hy)

theorem lookup_map {β : Type*} {key' : β → K} {f : α → β} (hf : ∀ x, key' (f x) = key x)
    (l : List α) (k : K) : lookup c key' (l.map f) k = (lookup c key l k).map f := by
  rw [lookup, List.find?_map, lookup]
  simp only [Function.comp_def, hf]

/-- When the elements with a key are dropped, it is not found any more, and other keys are. -/
theorem lookup_filter (l : List α) (k k' : K) :
    lookup c key (l.filter fun y => c.cmp (key y) k ≠ 0) k' =
      if c.cmp k k' = 0 then none else lookup c key l k' := by
  by_cases hk : c.cmp k k' = 0
  · rw [if_pos hk, lookup_eq_none]
    intro y hy hyk'
    have hne : c.cmp (key y) k ≠ 0 := of_decide_eq_true (List.mem_filter.mp hy).2
    exact hne (c.zero_trans hyk' (c.zero_comm.mp hk))
  · rw [if_neg hk, lookup, lookup, List.find?_filter]
    refine congrArg (fun p => List.find? p l) (funext fun y => ?_)
    by_cases hyk' : c.cmp (key y) k' = 0
    · have hne : c.cmp (key y) k ≠ 0 := fun hyk => hk (c.zero_trans (c.zero_comm.mp hyk) hyk')
      simp [hyk', hne]
    · simp [hyk']

/-! ### Setting an element under its key -/

/-- The list with `x` at the place of its key, where an equal key goes away. -/
def setKey (c : Comparator K) (key : α → K) (x : α) (l : List α) : List α :=
  l.filter (fun y => c.cmp (key y) (key x) < 0) ++
    x :: l.filter fun y => 0 < c.cmp (key y) (key x)

theorem mem_setKey {l : List α} (h : y ∈ setKey c key x l) : y = x ∨ y ∈ l := by
  rcases List.mem_append.mp h with h | h
  · exact Or.inr (List.mem_of_mem_filter h)
  · rcases List.mem_cons.mp h with h | h
    · exact Or.inl h
    · exact Or.inr (List.mem_of_mem_filter h)

theorem map_setKey {β : Type*} {key' : β → K} {f : α → β} (hf : ∀ x, key' (f x) = key x) (x : α)
    (l : List α) : (setKey c key x l).map f = setKey c key' (f x) (l.map f) := by
  rw [setKey, setKey, List.map_append, List.map_cons, List.filter_map, List.filter_map]
  simp only [Function.comp_def, hf]

theorem setKey_perm (x : α) (l : List α) :
    (setKey c key x l).Perm (x :: l.filter fun y => c.cmp (key y) (key x) ≠ 0) := by
  refine List.perm_middle.trans (List.Perm.cons x ?_)
  induction l with
  | nil => exact List.Perm.refl _
  | cons y l ih =>
      rcases lt_trichotomy (c.cmp (key y) (key x)) 0 with hlt | heq | hgt
      · simpa [hlt, not_lt_of_gt hlt, ne_of_lt hlt] using ih
      · simpa [heq] using ih
      · simpa [hgt, not_lt_of_gt hgt, ne_of_gt hgt] using List.perm_middle.trans (ih.cons y)

theorem perm_lookup {l : List α} (h : Ascending c key l) (k : K) :
    l.Perm ((lookup c key l k).toList ++ l.filter fun y => c.cmp (key y) k ≠ 0) := by
  cases hlookup : lookup c key l k with
  | none =>
      rw [filter_of_lookup_eq_none hlookup]
      exact List.Perm.refl _
  | some x =>
      obtain ⟨hx, hk⟩ := (lookup_eq_some h).mp hlookup
      obtain ⟨A, B, rfl⟩ := List.append_of_mem hx
      rw [← (without_middle x A B).eq_filter h hk]
      exact List.perm_middle

theorem setKey_of_ascending (h : Ascending c key (A ++ x :: B)) {M : List α}
    (hM : ∀ y ∈ M, c.cmp (key y) (key x) = 0) : setKey c key x (A ++ (M ++ B)) = A ++ x :: B := by
  obtain ⟨-, hB, hA⟩ := List.pairwise_append.mp h
  have hbelow : ∀ y ∈ A, c.cmp (key y) (key x) < 0 := fun y hy => hA y hy x List.mem_cons_self
  have habove : ∀ y ∈ B, 0 < c.cmp (key y) (key x) := fun y hy =>
    (c.lt_iff _ _).mp ((List.pairwise_cons.mp hB).1 y hy)
  have hlower : (A ++ (M ++ B)).filter (fun y => c.cmp (key y) (key x) < 0) = A := by
    rw [List.filter_append, List.filter_append, List.filter_eq_self.mpr, List.filter_eq_nil_iff.mpr,
      List.filter_eq_nil_iff.mpr, List.append_nil, List.append_nil]
    · exact fun y hy => by simpa using (habove y hy).le
    · exact fun y hy => by simp [hM y hy]
    · exact fun y hy => by simpa using hbelow y hy
  have hupper : (A ++ (M ++ B)).filter (fun y => 0 < c.cmp (key y) (key x)) = B := by
    rw [List.filter_append, List.filter_append, List.filter_eq_nil_iff.mpr,
      List.filter_eq_nil_iff.mpr, List.filter_eq_self.mpr, List.nil_append, List.nil_append]
    · exact fun y hy => by simpa using habove y hy
    · exact fun y hy => by simp [hM y hy]
    · exact fun y hy => by simpa using (hbelow y hy).le
  rw [setKey, hlower, hupper]

/-- An ascending list consists of the smaller, the equal and the larger keys. -/
theorem Ascending.split {l : List α} (h : Ascending c key l) (k : K) :
    l = l.filter (fun y => c.cmp (key y) k < 0) ++ (l.filter (fun y => c.cmp (key y) k = 0) ++
      l.filter fun y => 0 < c.cmp (key y) k) := by
  induction l with
  | nil => rfl
  | cons y l ih =>
      obtain ⟨hy, hl⟩ := List.pairwise_cons.mp h
      by_cases hlt : c.cmp (key y) k < 0
      · have hne : ¬ c.cmp (key y) k = 0 := ne_of_lt hlt
        have hgt : ¬ 0 < c.cmp (key y) k := not_lt.mpr hlt.le
        simp only [List.filter_cons, hlt, hne, hgt, decide_true, decide_false, if_true,
          Bool.false_eq_true, if_false, List.cons_append]
        exact congrArg _ (ih hl)
      · -- what is larger than a key that is not smaller is larger
        have habove : ∀ z ∈ l, 0 < c.cmp (key z) k := by
          intro z hz
          by_contra hle
          have hky : c.cmp k (key y) ≤ 0 := (c.dual _ _).mp (not_lt.mp hlt)
          have hzy := c.trans _ _ _ (not_lt.mp hle) hky
          exact absurd ((c.lt_iff _ _).mp (hy z hz)) (not_lt.mpr hzy)
        have hlower : l.filter (fun y => c.cmp (key y) k < 0) = [] :=
          List.filter_eq_nil_iff.mpr fun z hz => by simpa using (habove z hz).le
        have hequal : l.filter (fun y => c.cmp (key y) k = 0) = [] :=
          List.filter_eq_nil_iff.mpr fun z hz => by simpa using (habove z hz).ne'
        have hupper : l.filter (fun y => 0 < c.cmp (key y) k) = l :=
          List.filter_eq_self.mpr fun z hz => by simpa using habove z hz
        simp only [List.filter_cons, hlower, hequal, hupper, hlt, decide_false, Bool.false_eq_true,
          if_false, List.nil_append]
        by_cases hzero : c.cmp (key y) k = 0
        · have hgt : ¬ 0 < c.cmp (key y) k := by omega
          simp only [hzero, decide_true, if_true, lt_irrefl, decide_false, Bool.false_eq_true,
            if_false, List.cons_append, List.nil_append]
        · have hgt : 0 < c.cmp (key y) k := by omega
          simp only [hzero, hgt, decide_false, Bool.false_eq_true, decide_true, if_false, if_true,
            List.nil_append]

theorem ascending_setKey {l : List α} (h : Ascending c key l) (x : α) :
    Ascending c key (setKey c key x l) := by
  refine List.pairwise_append.mpr ⟨h.filter _, List.pairwise_cons.mpr ⟨?_, h.filter _⟩, ?_⟩
  · intro y hy
    exact (c.lt_iff _ _).mpr (of_decide_eq_true (List.mem_filter.mp hy).2)
  · intro y hy z hz
    have hyx : c.cmp (key y) (key x) < 0 := of_decide_eq_true (List.mem_filter.mp hy).2
    rcases List.mem_cons.mp hz with rfl | hz
    · exact hyx
    · exact c.lt_trans hyx ((c.lt_iff _ _).mpr (of_decide_eq_true (List.mem_filter.mp hz).2))

/-- After setting an element, its key leads to it, and other keys to what they led to. -/
theorem lookup_setKey {l : List α} (h : Ascending c key l) (x : α) (k : K) :
    lookup c key (setKey c key x l) k =
      if c.cmp (key x) k = 0 then some x else lookup c key l k := by
  rw [setKey, lookup_middle (ascending_setKey h x)]
  by_cases hk : c.cmp (key x) k = 0
  · rw [if_pos hk, if_pos hk]
  · rw [if_neg hk, if_neg hk]
    have hnone : lookup c key (l.filter fun y => c.cmp (key y) (key x) = 0) k = none := by
      refine lookup_eq_none.mpr fun y hy hyk => hk ?_
      have hyx : c.cmp (key y) (key x) = 0 := of_decide_eq_true (List.mem_filter.mp hy).2
      exact c.zero_trans (c.zero_comm.mp hyx) hyk
    have hsplit := congrArg (fun l => lookup c key l k) (h.split (key x))
    rw [lookup] at hnone
    simp only [lookup, List.find?_append, hnone, Option.none_or] at hsplit ⊢
    exact hsplit.symm

theorem rootData_seek {t : PTree α} (hord : Ordered c key t) (k : K) :
    (seek (fun x => c.cmp (key x) k) t []).1.rootData = lookup c key t.values k := by
  have hplug := plug_seek (c := fun x => c.cmp (key x) k) t []
  rw [plug] at hplug
  have hnil : Around c key k ([] : List (Frame α)) :=
    fun _ hf => absurd hf List.not_mem_nil
  have hwhole : Ordered c key (plug t []) := hord
  have haround := around_seek hwhole hnil
  have hlist : Ascending c key t.values := hord
  obtain ⟨A, B, hAB⟩ := exists_values_plug (seek (fun x => c.cmp (key x) k) t []).2
  rcases seek_cases (c := fun x => c.cmp (key x) k) t [] with hleaf | ⟨l, a, x, r, hnode, hx⟩
  · rw [hleaf] at hplug
    rw [hleaf, rootData, eq_comm, lookup_eq_none]
    intro y hy
    rw [← hplug] at hy
    exact (ne_of_around haround hy).resolve_left List.not_mem_nil
  · rw [hnode] at hplug
    have hvalues : t.values = (A ++ l.values) ++ x :: (r.values ++ B) := by
      rw [← hplug, hAB, values, List.append_assoc, List.append_assoc, List.cons_append]
    rw [hvalues] at hlist ⊢
    rw [hnode, rootData, lookup_middle hlist, if_pos hx]

end Lookup

end LibHL
