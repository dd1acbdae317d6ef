import LibHL.LinkedList.Partition

/-!
# What sorting a list does

After the partition the two recursive calls sort the parts before and behind the pivot,
which lie inside the whole list.  A list of fewer than `2 ^ 31` entries is sorted; the
length of a longer one is negative as an `int`, and then nothing is done.
-/

namespace LibHL
namespace LinkedList

variable {V : Type} {l l₁ l₂ : LinkedList V} {es : Heap (ListEntry V)}
  {rest : Multiset (Addr × ListEntry V)} {outer part outer' cs : List (Addr × Option V)}
  {a b p : Addr} {u v : Option V} {comparator : Option V → Option V → ℤ} {n k : ℕ}

/-! ## Recursion -/

/-- The comparator finds no value larger than an earlier one. -/
def InOrder (comparator : Option V → Option V → ℤ) (xs : List (Option V)) : Prop :=
  xs.Pairwise fun v w => 0 ≤ comparator v w

/-- A part of a list has been rearranged, and is in order if the comparator is one. -/
structure Sorts (comparator : Option V → Option V → ℤ) (l : LinkedList V)
    (outer part outer' : List (Addr × Option V)) (rest : Multiset (Addr × ListEntry V))
    (part' : List (Addr × Option V)) : Prop where
  arranged : Arranged l (outer ++ (part' ++ outer')) rest
  rearranges : Rearranges part part'
  inOrder : ∀ c : Comparator (Option V), c.cmp = comparator →
    InOrder comparator (part'.map Prod.snd)

/-- With this fuel, every part of a list is sorted around any of its entries. -/
def QuickSorts (comparator : Option V → Option V → ℤ) (fuel : ℕ) : Prop :=
  ∀ (l : LinkedList V) (outer part outer' : List (Addr × Option V))
    (rest : Multiset (Addr × ListEntry V)) (pivot : Addr),
    Arranged l (outer ++ (part ++ outer')) rest → 2 ≤ part.length → part.length ≤ fuel →
    pivot ∈ part.map Prod.fst →
    ∃ l' part', listQuickSort comparator (fuel + 1) l (firstAddr part none)
        (lastAddr none part) (some pivot) part.length = some l' ∧
      Sorts comparator l' outer part outer' rest part'

theorem inOrder_of_length_le_one {xs : List (Option V)} (h : xs.length ≤ 1) :
    InOrder comparator xs := by
  cases xs with
  | nil => exact List.Pairwise.nil
  | cons x xs =>
      obtain rfl : xs = [] := List.eq_nil_of_length_eq_zero (Nat.le_zero.mp (Nat.le_of_succ_le_succ h))
      exact List.pairwise_singleton _ _

theorem sorts_self (h : Arranged l (outer ++ (part ++ outer')) rest) (hlen : part.length ≤ 1) :
    Sorts comparator l outer part outer' rest part :=
  ⟨h, Rearranges.refl part, fun _ _ =>
    inOrder_of_length_le_one ((List.length_map _).le.trans hlen)⟩

theorem firstAddr_congr (hne : part ≠ []) (x y : Option Addr) :
    firstAddr part x = firstAddr part y := by
  obtain ⟨c, ds, rfl⟩ := List.exists_cons_of_ne_nil hne
  rfl

theorem lastAddr_congr (hne : part ≠ []) (x y : Option Addr) :
    lastAddr x part = lastAddr y part := by
  obtain ⟨c, ds, rfl⟩ := List.exists_cons_of_ne_nil hne
  rfl

/-- The call for one side of the pivot. -/
theorem QuickSorts.side (ih : QuickSorts comparator n)
    (h : Arranged l (outer ++ (part ++ outer')) rest) (hfuel : part.length ≤ n)
    {head tail pv : Option Addr} {c : Prop} [Decidable c] (hc : c ↔ 2 ≤ part.length)
    {x y : Option Addr} (hhead : head = firstAddr part x) (htail : tail = lastAddr y part)
    (hpv : 2 ≤ part.length → ∃ q ∈ part.map Prod.fst, pv = some q) :
    ∃ l' part', (if c then listQuickSort comparator (n + 1) l head tail pv part.length
        else some l) = some l' ∧ Sorts comparator l' outer part outer' rest part' := by
  by_cases hlen : 2 ≤ part.length
  · obtain ⟨q, hq, rfl⟩ := hpv hlen
    obtain ⟨l', part', hrun, hsorts⟩ := ih l outer part outer' rest q h hlen hfuel hq
    have hne : part ≠ [] := List.ne_nil_of_length_pos (Nat.lt_of_lt_of_le Nat.two_pos hlen)
    refine ⟨l', part', ?_, hsorts⟩
    rw [if_pos (hc.mpr hlen), hhead, htail, firstAddr_congr hne x none,
      lastAddr_congr hne y none]
    exact hrun
  · exact ⟨l, part, if_neg (mt hc.mp hlen), sorts_self h (by omega)⟩

theorem exists_firstAddr (cs : List (Addr × Option V)) (a : Addr) :
    ∃ b, firstAddr cs (some a) = some b := by
  cases cs with
  | nil => exact ⟨a, rfl⟩
  | cons c cs => exact ⟨c.1, rfl⟩

theorem exists_lastAddr (cs : List (Addr × Option V)) (a : Addr) :
    ∃ b, lastAddr (some a) cs = some b := by
  rw [← firstAddr_reverse]
  exact exists_firstAddr cs.reverse a

theorem firstAddr_ne_lastAddr (hnodup : (cs.map Prod.fst).Nodup) (hlen : 2 ≤ cs.length)
    (x y : Option Addr) : firstAddr cs x ≠ lastAddr y cs := by
  obtain ⟨c, ds, rfl⟩ := List.exists_cons_of_length_pos (Nat.lt_of_lt_of_le Nat.two_pos hlen)
  have hne : ds ≠ [] := by
    rintro rfl
    exact absurd hlen (Nat.not_le.mpr Nat.one_lt_two)
  obtain ⟨ws, d, rfl⟩ := (List.eq_nil_or_concat' ds).resolve_left hne
  rw [firstAddr_cons, lastAddr_cons, lastAddr_append, lastAddr_cons, lastAddr_nil]
  intro heq
  rw [List.map_cons, List.nodup_cons] at hnodup
  apply hnodup.1
  rw [Option.some.inj heq]
  simp

theorem middle_eq (k : ℕ) : ((k : ℤ).tdiv 2).toNat = k / 2 := by
  rw [Int.tdiv_eq_ediv_of_nonneg (Int.natCast_nonneg k)]
  omega

/-- A walk to the middle of a part that lies next to the pivot stays in the part. -/
theorem middle_mem (hk : 2 ≤ part.length) (c : Addr × Option V) :
    ∃ q ∈ part.map Prod.fst,
      ((part ++ [c]).map Prod.fst)[((part.length : ℤ).tdiv 2).toNat]? = some q := by
  have hmiddle : ((part.length : ℤ).tdiv 2).toNat < (part.map Prod.fst).length := by
    rw [List.length_map, middle_eq]
    omega
  refine ⟨_, List.getElem_mem hmiddle, ?_⟩
  rw [List.map_append, List.getElem?_append_left hmiddle]
  exact List.getElem?_eq_getElem hmiddle

theorem middle_lt (part : List (Addr × Option V)) :
    ((part.length : ℤ).tdiv 2).toNat < part.length + 1 := by
  rw [middle_eq]
  omega

/-- The two sides and the pivot. -/
theorem inOrder_around {c : Comparator (Option V)} {xs ys : List (Option V)}
    (hx : InOrder c.cmp xs) (hy : InOrder c.cmp ys) (hxu : ∀ x ∈ xs, 0 ≤ c.cmp x u)
    (hyu : ∀ y ∈ ys, c.cmp y u ≤ 0) : InOrder c.cmp (xs ++ u :: ys) := by
  refine List.pairwise_append.mpr ⟨hx, List.pairwise_cons.mpr ⟨?_, hy⟩, ?_⟩
  · intro y hymem
    exact (c.dual u y).mpr (hyu y hymem)
  · intro x hxmem y hymem
    rcases List.mem_cons.mp hymem with rfl | hymem
    · exact hxu x hxmem
    · exact (c.dual x y).mpr
        (c.trans y u x (hyu y hymem) ((c.dual x u).mp (hxu x hxmem)))

/-- A part of two entries. -/
theorem listQuickSort_two
    (h : Arranged l (outer ++ ([(a, u), (b, v)] ++ outer')) rest) (pivot : Addr) :
    ∃ l' part', listQuickSort comparator (n + 1) l (some a) (some b) (some pivot) 2 = some l' ∧
      Sorts comparator l' outer [(a, u), (b, v)] outer' rest part' := by
  have hread : l.entries a = some (ownedCell (lastAddr none outer) (some b) u) :=
    read_of_chainCells h.cells
  have hread' : l.entries b = some (ownedCell (some a) (firstAddr outer' none) v) := by
    have hassoc : outer ++ ([(a, u), (b, v)] ++ outer') = (outer ++ [(a, u)]) ++ (b, v) :: outer' := by
      simp
    have hcells := h.cells
    rw [hassoc] at hcells
    have hb := read_of_chainCells hcells
    rwa [lastAddr_append, lastAddr_cons, lastAddr_nil] at hb
  by_cases hlt : comparator u v < 0
  · have hcells : l.entries.cells =
        chainCells ownedCell none (outer ++ (a, u) :: ([] ++ (b, v) :: outer')) none + rest :=
      h.cells
    obtain ⟨es', hrun, hs⟩ := swapEntryNodeVal_spec hcells
    refine ⟨{ l with entries := es' }, [(a, v), (b, u)], ?_, ⟨hs, ?_, ?_, ?_⟩, ?_, ?_⟩
    · simp [listQuickSort, hread, hread', ownedCell, hlt, hrun]
    · rw [h.head]
      simp
    · rw [h.tail]
      simp
    · rw [h.length]
      simp
    · exact Rearranges.swap [] [] [] a b u v
    · rintro c rfl
      refine List.pairwise_pair.mpr ?_
      exact (c.dual v u).mpr (Int.le_of_lt hlt)
  · refine ⟨l, _, ?_, h, Rearranges.refl _, ?_⟩
    · simp [listQuickSort, hread, hread', ownedCell, hlt]
    · rintro c rfl
      exact List.pairwise_pair.mpr (Int.not_lt.mp hlt)

/-- The steps of a call with three entries or more. -/
theorem listQuickSort_of_partition {e e₁ e₂ : ListEntry V} {s : Partition V} {h t : Addr}
    {pv1 pv2 : Option Addr} {length : ℤ} (hlen : 2 < length)
    (hread : l.entries p = some e)
    (hloop : partitionLoop comparator e.value p n
      { list := l, head := some h, tail := some t, p1 := some h, p2 := some t } = some s)
    (hcount : countTo s.list.entries p n s.head = some k)
    (hpv1 : goAlong s.list.entries ListEntry.next ((k : ℤ).tdiv 2).toNat s.head = some pv1)
    (hpv2 : goAlong s.list.entries ListEntry.prev ((length - (k + 1)).tdiv 2).toNat s.tail =
      some pv2)
    (hread₁ : s.list.entries p = some e₁)
    (hleft : (if 1 < (k : ℤ) ∧ e₁.prev ≠ none ∧ s.head ≠ e₁.prev then
      listQuickSort comparator n s.list s.head e₁.prev pv1 k else some s.list) = some l₁)
    (hread₂ : l₁.entries p = some e₂)
    (hright : (if 1 < length - (k + 1) ∧ e₂.next ≠ none ∧ s.tail ≠ e₂.next then
      listQuickSort comparator n l₁ e₂.next s.tail pv2 (length - (k + 1)) else some l₁) =
        some l₂) :
    listQuickSort comparator (n + 1) l (some h) (some t) (some p) length = some l₂ := by
  have hlt : ¬ length < 2 := by omega
  have hne : ¬ length = 2 := by omega
  simp only [listQuickSort, if_neg hlt, if_neg hne, hread, hloop, hcount, hpv1, hpv2, hread₁,
    hleft, hread₂, hright, Option.map_some, Option.bind_eq_bind, Option.bind_some]

namespace Partitions

variable {left right : List (Addr × Option V)} {s : Partition V}

theorem arranged_end (h : Partitions comparator p u outer outer' rest s left [] [] right) :
    Arranged s.list (outer ++ (left ++ (p, u) :: (right ++ outer'))) rest := by
  simpa only [List.nil_append] using h.arranged

theorem head_end (h : Partitions comparator p u outer outer' rest s left [] [] right)
    (q : Option Addr) : s.head = firstAddr (left ++ [(p, u)]) q := by
  rw [h.head, List.append_nil, firstAddr_append, firstAddr_cons]

theorem tail_end (h : Partitions comparator p u outer outer' rest s left [] [] right)
    (q : Option Addr) : s.tail = lastAddr q ((p, u) :: right) := by
  rw [h.tail, List.nil_append, lastAddr_cons]

theorem countTo_head (h : Partitions comparator p u outer outer' rest s left [] [] right)
    (hfuel : left.length < n) : countTo s.list.entries p n s.head = some left.length := by
  have hfollow := follows_next ListEntry.next ListEntry.value
    (fun _ _ _ => rfl) (fun _ _ _ => rfl) h.arranged_end.cells
  rw [h.head, List.append_nil]
  exact countTo_eq hfollow h.pivot_notMem_parts.1 hfuel

/-- The pivot chosen for the entries before the pivot. -/
theorem goAlong_head (h : Partitions comparator p u outer outer' rest s left [] [] right) :
    goAlong s.list.entries ListEntry.next ((left.length : ℤ).tdiv 2).toNat s.head =
      some ((left ++ [(p, u)]).map Prod.fst)[((left.length : ℤ).tdiv 2).toNat]? := by
  have hcells := h.arranged_end.cells
  have hassoc : left ++ (p, u) :: (right ++ outer') =
      (left ++ [(p, u)]) ++ (right ++ outer') := by
    simp only [List.append_assoc, List.cons_append, List.nil_append]
  rw [hassoc] at hcells
  have hfollow := follows_next ListEntry.next ListEntry.value
    (fun _ _ _ => rfl) (fun _ _ _ => rfl) hcells
  rw [h.head_end]
  refine goAlong_eq hfollow ?_
  rw [List.length_append]
  exact middle_lt left

/-- The pivot chosen for the entries behind the pivot. -/
theorem goAlong_tail (h : Partitions comparator p u outer outer' rest s left [] [] right) :
    goAlong s.list.entries ListEntry.prev ((right.length : ℤ).tdiv 2).toNat s.tail =
      some ((right.reverse ++ [(p, u)]).map Prod.fst)[((right.length : ℤ).tdiv 2).toNat]? := by
  have hcells := h.arranged_end.cells
  have hassoc : outer ++ (left ++ (p, u) :: (right ++ outer')) =
      (outer ++ left) ++ (((p, u) :: right) ++ outer') := by
    simp only [List.append_assoc, List.cons_append]
  rw [hassoc] at hcells
  have hfollow := follows_prev ListEntry.prev ListEntry.value
    (fun _ _ _ => rfl) (fun _ _ _ => rfl) hcells
  rw [List.reverse_cons] at hfollow
  rw [h.tail_end, ← firstAddr_reverse, List.reverse_cons]
  refine goAlong_eq hfollow ?_
  rw [List.length_append, List.length_reverse]
  exact middle_lt right

end Partitions

theorem Arranged.pivot_entry {left right : List (Addr × Option V)}
    (h : Arranged l (outer ++ (left ++ (p, u) :: (right ++ outer'))) rest) :
    l.entries p = some (ownedCell (lastAddr (lastAddr none outer) left)
      (firstAddr right (firstAddr outer' none)) u) := by
  rw [← List.append_assoc] at h
  rw [h.entry, lastAddr_append, firstAddr_append]

theorem nodup_part (h : Arranged l (outer ++ (part ++ outer')) rest) :
    (part.map Prod.fst).Nodup := by
  have hnodup := h.nodup
  rw [List.map_append, List.map_append] at hnodup
  exact (List.nodup_append.mp (List.nodup_append.mp hnodup).2.1).1

/-- The conditions under which the source sorts the entries before the pivot. -/
theorem left_cond_iff (hnodup : (part.map Prod.fst).Nodup) (x q : Option Addr) :
    (1 < (part.length : ℤ) ∧ lastAddr q part ≠ none ∧ firstAddr part x ≠ lastAddr q part) ↔
      2 ≤ part.length := by
  constructor
  · rintro ⟨hlen, -⟩
    omega
  · intro hlen
    have hne := firstAddr_ne_lastAddr hnodup hlen x q
    have hpart : part ≠ [] := List.ne_nil_of_length_pos (Nat.lt_of_lt_of_le Nat.two_pos hlen)
    obtain ⟨ws, c, rfl⟩ := (List.eq_nil_or_concat' part).resolve_left hpart
    refine ⟨by omega, ?_, hne⟩
    rw [lastAddr_append]
    exact Option.some_ne_none _

/-- The conditions under which it sorts those behind. -/
theorem right_cond_iff (hnodup : (part.map Prod.fst).Nodup) (x q : Option Addr) :
    (1 < (part.length : ℤ) ∧ firstAddr part x ≠ none ∧ lastAddr q part ≠ firstAddr part x) ↔
      2 ≤ part.length := by
  constructor
  · rintro ⟨hlen, -⟩
    omega
  · intro hlen
    have hne := firstAddr_ne_lastAddr hnodup hlen x q
    obtain ⟨c, ds, rfl⟩ := List.exists_cons_of_length_pos (Nat.lt_of_lt_of_le Nat.two_pos hlen)
    exact ⟨by omega, Option.some_ne_none _, hne.symm⟩

/-- Sorting around the pivot, if that works for smaller parts. -/
theorem listQuickSort_three (ih : QuickSorts comparator n) {ws ys : List (Addr × Option V)}
    (h : Arranged l (outer ++ ((ws ++ (p, u) :: ys) ++ outer')) rest)
    (hlen : 2 < (ws ++ (p, u) :: ys).length) (hfuel : (ws ++ (p, u) :: ys).length ≤ n + 1) :
    ∃ l' part', listQuickSort comparator (n + 2) l (firstAddr (ws ++ (p, u) :: ys) none)
        (lastAddr none (ws ++ (p, u) :: ys)) (some p) (ws ++ (p, u) :: ys).length = some l' ∧
      Sorts comparator l' outer (ws ++ (p, u) :: ys) outer' rest part' := by
  have hstart : Partitions comparator p u outer outer' rest
      { list := l
        head := firstAddr (ws ++ (p, u) :: ys) none
        tail := lastAddr none (ws ++ (p, u) :: ys)
        p1 := firstAddr (ws ++ (p, u) :: ys) none
        p2 := lastAddr none (ws ++ (p, u) :: ys) } [] ws ys [] := by
    refine ⟨?_, ?_, ?_, ?_, ?_, fun _ hc => absurd hc List.not_mem_nil,
      fun _ hc => absurd hc List.not_mem_nil⟩
    · simpa only [List.append_assoc, List.cons_append, List.nil_append] using h
    · simp
    · simp
    · simp
    · simp
  have hread : l.entries p = some (ownedCell (lastAddr none (outer ++ ws))
      (firstAddr (ys ++ outer') none) u) := by
    have hcells := h.cells
    have hassoc : outer ++ ((ws ++ (p, u) :: ys) ++ outer') =
        (outer ++ ws) ++ (p, u) :: (ys ++ outer') := by
      simp only [List.append_assoc, List.cons_append]
    rw [hassoc] at hcells
    exact read_of_chainCells hcells
  have hloopfuel : ws.length + ys.length < n + 1 := by
    rw [List.length_append, List.length_cons] at hfuel
    omega
  obtain ⟨s, left, right, hloop, hend, hre⟩ := hstart.loop hloopfuel
  rw [List.nil_append, List.append_nil] at hre
  have hlens := hre.length_eq
  rw [List.length_append, List.length_cons] at hlens
  have hcount := hend.countTo_head (n := n + 1) (by omega)
  have hright : ((ws ++ (p, u) :: ys).length : ℤ) - (left.length + 1) = right.length := by
    omega
  have harr := hend.arranged_end
  have hhead : s.head = firstAddr left (some p) := by
    rw [hend.head, List.append_nil]
  have htail : s.tail = lastAddr (some p) right := by
    rw [hend.tail, List.nil_append]
  obtain ⟨l₁, left', hrun₁, hsorts₁⟩ := ih.side harr
    (by omega) (left_cond_iff (nodup_part harr) (some p) (lastAddr none outer)) rfl rfl
    (fun hlen => middle_mem hlen (p, u))
  have hread₁ := harr.pivot_entry
  have hread₂ := hsorts₁.arranged.pivot_entry
  have harr₁ : Arranged l₁ ((outer ++ (left' ++ [(p, u)])) ++ (right ++ outer')) rest := by
    simpa only [List.append_assoc, List.cons_append, List.nil_append] using hsorts₁.arranged
  have hpv2 : 2 ≤ right.length → ∃ q ∈ right.map Prod.fst,
      ((right.reverse ++ [(p, u)]).map Prod.fst)[((right.length : ℤ).tdiv 2).toNat]? =
        some q := by
    intro hlen
    have hlen' : 2 ≤ right.reverse.length := by rwa [List.length_reverse]
    have hmem := middle_mem hlen' (p, u)
    simpa only [List.length_reverse, List.map_reverse, List.mem_reverse] using hmem
  obtain ⟨l₂, right', hrun₂, hsorts₂⟩ := ih.side harr₁ (by omega)
    (right_cond_iff (nodup_part harr₁) (firstAddr outer' none) (some p)) rfl rfl
    hpv2
  have hfirst : firstAddr (ws ++ (p, u) :: ys) none = firstAddr ws (some p) :=
    firstAddr_append ws ((p, u) :: ys) none
  have hlast : lastAddr none (ws ++ (p, u) :: ys) = lastAddr (some p) ys :=
    lastAddr_append none ws ((p, u) :: ys)
  obtain ⟨hd, hhd⟩ := exists_firstAddr ws p
  obtain ⟨tl, htl⟩ := exists_lastAddr ys p
  refine ⟨l₂, left' ++ (p, u) :: right', ?_, ?_, ?_, ?_⟩
  · rw [hfirst, hlast, hhd, htl] at hloop ⊢
    have hpick := hend.goAlong_tail
    rw [← hright] at hpick hrun₂
    rw [← hhead] at hrun₁
    rw [← htail] at hrun₂
    exact listQuickSort_of_partition (by omega) hread hloop hcount hend.goAlong_head hpick
      hread₁ hrun₁ hread₂ hrun₂
  · simpa only [List.append_assoc, List.cons_append, List.nil_append] using hsorts₂.arranged
  · exact hre.trans (hsorts₁.rearranges.append
      ((Rearranges.refl [(p, u)]).append hsorts₂.rearranges))
  · intro c hc
    have hin₁ := hsorts₁.inOrder c hc
    have hin₂ := hsorts₂.inOrder c hc
    have hle := hsorts₁.rearranges.forall_values (P := fun v => 0 ≤ comparator v u) hend.left_le
    have hge := hsorts₂.rearranges.forall_values (P := fun v => comparator v u ≤ 0) hend.right_ge
    rw [← hc] at hin₁ hin₂ hle hge ⊢
    rw [List.map_append, List.map_cons]
    refine inOrder_around hin₁ hin₂ ?_ ?_
    · intro x hx
      obtain ⟨d, hd, rfl⟩ := List.mem_map.mp hx
      exact hle d hd
    · intro y hy
      obtain ⟨d, hd, rfl⟩ := List.mem_map.mp hy
      exact hge d hd

theorem quickSorts (comparator : Option V → Option V → ℤ) (fuel : ℕ) :
    QuickSorts comparator fuel := by
  induction fuel with
  | zero =>
      intro l outer part outer' rest pivot _ hlen hfuel
      omega
  | succ n ih =>
      intro l outer part outer' rest pivot h hlen hfuel hpivot
      obtain ⟨⟨p, u⟩, hmem, rfl⟩ := List.mem_map.mp hpivot
      by_cases htwo : part.length = 2
      · obtain ⟨c, d, rfl⟩ := List.length_eq_two.mp htwo
        exact listQuickSort_two h p
      · obtain ⟨ws, ys, rfl⟩ := List.append_of_mem hmem
        exact listQuickSort_three ih h (by omega) hfuel

/-! ## The whole list -/

variable {ps : List Addr} {xs : List (Option V)}

theorem Arranged.set_cursor {cs : List (Addr × Option V)} (h : Arranged l cs rest) (pos : ℕ)
    (cur : Option Addr) : Arranged { l with pos := pos, cur := cur } cs rest :=
  ⟨h.cells, h.head, h.tail, h.length⟩

/-- The comparator that `list_sort` starts with belongs to the entry before the middle. -/
theorem Represents.pickPivot_eq (h : Represents l ps xs) (hlen : ps.length < 2 ^ 32)
    (htwo : 2 ≤ ps.length) : ∃ a ∈ ps,
      l.pickEntry (if l.length / 2 = 0 then 2 ^ 64 - 1 else l.length / 2 - 1) =
        some ({ l with pos := l.length / 2 - 1, cur := some a }, some a) := by
  have hpos : l.length / 2 - 1 < ps.length := by
    rw [h.length]
    omega
  have hne : ¬ l.length / 2 = 0 := by
    rw [h.length]
    omega
  rw [if_neg hne]
  exact ⟨ps[l.length / 2 - 1], List.getElem_mem hpos,
    h.pickEntry_of_le (Nat.le_of_lt hlen) (List.getElem?_eq_getElem hpos)⟩

/-- On a list of at most one entry there is no pivot. -/
theorem Represents.pickPivot_none (h : Represents l ps xs) (hlen : ps.length ≤ 1) :
    l.pickEntry (if l.length / 2 = 0 then 2 ^ 64 - 1 else l.length / 2 - 1) =
      some (l, none) := by
  have hzero : l.length / 2 = 0 := by
    rw [h.length]
    omega
  rw [if_pos hzero]
  exact h.pickEntry_of_ge (by omega)

theorem cInt_of_lt {k : ℕ} (h : k < 2 ^ 31) : cInt k = k := by
  rw [cInt, Int.bmod_def]
  omega

theorem cInt_neg {k : ℕ} (hge : 2 ^ 31 ≤ k) (hlt : k < 2 ^ 32) : cInt k < 2 := by
  rw [cInt, Int.bmod_def]
  omega

/-- A call that returns at once. -/
theorem listQuickSort_of_lt_two {head tail pivot : Option Addr} {length : ℤ}
    (hlen : length < 2) :
    listQuickSort comparator (n + 1) l head tail pivot length = some l := by
  cases head with
  | none => rfl
  | some hd =>
      cases tail with
      | none => rfl
      | some tl =>
          cases pivot with
          | none => rfl
          | some p => exact if_pos hlen

/-- A list whose entries have their owner and whose length fits in an `int`: sorting
terminates with a rearrangement of it, in order if the comparator is one. -/
theorem Represents.listSort_eq (h : Represents l ps xs) (hown : Owned l ps)
    (hlen : ps.length < 2 ^ 31) (comparator : Option V → Option V → ℤ) :
    ∃ l' ps' ys, listSort comparator l = some l' ∧ Represents l' ps' ys ∧ Owned l' ps' ∧
      l'.cur = none ∧ l'.pos = 0 ∧ (AllOwned l.entries → AllOwned l'.entries) ∧ ys.Perm xs ∧
      ∀ c : Comparator (Option V), c.cmp = comparator → InOrder comparator ys := by
  by_cases htwo : 2 ≤ ps.length
  · obtain ⟨rest, harr⟩ := h.arranged hown
    obtain ⟨a, ha, hpick⟩ := h.pickPivot_eq (by omega) htwo
    have hfst : (ps.zip xs).map Prod.fst = ps := List.map_fst_zip (le_of_eq h.length_eq.symm)
    have hsnd : (ps.zip xs).map Prod.snd = xs := List.map_snd_zip (le_of_eq h.length_eq)
    have hcs : (ps.zip xs).length = ps.length := by rw [← List.length_map Prod.fst, hfst]
    have harr' : Arranged { l with pos := l.length / 2 - 1, cur := some a }
        ([] ++ (ps.zip xs ++ [])) rest := by
      rw [List.nil_append, List.append_nil]
      exact harr.set_cursor _ _
    obtain ⟨l', part', hrun, hsorts⟩ := quickSorts comparator l.entries.brk _ [] _ [] rest a
      harr' (hcs.symm ▸ htwo) (length_le_brk_of_chainCells harr.cells) (hfst.symm ▸ ha)
    have hend : Arranged l' part' rest := by
      have hend := hsorts.arranged
      rwa [List.nil_append, List.append_nil] at hend
    refine ⟨{ l' with cur := none, pos := 0 }, part'.map Prod.fst, part'.map Prod.snd, ?_,
      hend.represents 0, (hend.set_cursor 0 none).owned, rfl, rfl,
      harr.allOwned (hend.set_cursor 0 none), ?_, hsorts.inOrder⟩
    · rw [← harr.head, ← harr.tail, hcs, ← h.length] at hrun
      have hint : cInt l.length = l.length := cInt_of_lt (h.length ▸ hlen)
      simp only [listSort, hpick, hint, hrun, Option.bind_eq_bind, Option.bind_some]
    · exact hsnd ▸ hsorts.rearranges.values
  · have hpick := h.pickPivot_none (by omega)
    have hint : cInt l.length < 2 := by
      rw [h.length, cInt_of_lt hlen]
      omega
    refine ⟨{ l with cur := none, pos := 0 }, ps, xs, ?_, ?_, hown, rfl, rfl, id, .refl _,
      fun _ _ => inOrder_of_length_le_one (by rw [h.length_eq]; omega)⟩
    · simp only [listSort, hpick, listQuickSort_of_lt_two hint, Option.bind_eq_bind,
        Option.bind_some]
    · exact ⟨h.linked, h.values, h.head, h.tail, h.length, fun _ hb => absurd hb (by simp)⟩

theorem Represents.listSort_long (h : Represents l ps xs) (hge : 2 ^ 31 ≤ ps.length)
    (hlt : ps.length < 2 ^ 32) (comparator : Option V → Option V → ℤ) :
    ∃ l', listSort comparator l = some l' ∧ l'.entries = l.entries ∧ l'.cur = none ∧
      l'.pos = 0 ∧ Represents l' ps xs := by
  obtain ⟨a, ha, hpick⟩ := h.pickPivot_eq hlt (by omega)
  have hint : cInt l.length < 2 := by
    rw [h.length]
    exact cInt_neg hge hlt
  refine ⟨{ l with cur := none, pos := 0 }, ?_, rfl, rfl, rfl, ?_⟩
  · simp only [listSort, hpick, listQuickSort_of_lt_two hint, Option.bind_eq_bind,
      Option.bind_some]
  · exact ⟨h.linked, h.values, h.head, h.tail, h.length, fun _ hb => absurd hb (by simp)⟩

/-- Sorting terminates with a well-formed list of the same values in order, whose cursor is
reset. -/
def SortsList (comparator : Option V → Option V → ℤ) (l : LinkedList V)
    (xs : List (Option V)) : Prop :=
  ∃ l' ps' ys, listSort comparator l = some l' ∧ Represents l' ps' ys ∧ l'.cur = none ∧
    l'.pos = 0 ∧ l'.listCount = l.listCount ∧ ys.Perm xs ∧ InOrder comparator ys

/-- A list is sorted if it has fewer than `2 ^ 31` entries, or fewer than `2 ^ 32` and is in
order already; and with fewer than `2 ^ 32` entries only then. -/
theorem listSort_sorts_iff (c : Comparator (Option V)) (l : LinkedList V) (ps : List Addr)
    (xs : List (Option V)) (h : Represents l ps xs) (hown : Owned l ps) :
    (xs.length < 2 ^ 31 ∨ (xs.length < 2 ^ 32 ∧ InOrder c.cmp xs) → SortsList c.cmp l xs) ∧
      (xs.length < 2 ^ 32 → SortsList c.cmp l xs →
        xs.length < 2 ^ 31 ∨ InOrder c.cmp xs) := by
  rw [h.length_eq]
  constructor
  · intro hcond
    by_cases hlen : ps.length < 2 ^ 31
    · obtain ⟨l', ps', ys, hrun, h', -, hcur, hpos, -, hperm, horder⟩ :=
        h.listSort_eq hown hlen c.cmp
      refine ⟨l', ps', ys, hrun, h', hcur, hpos, ?_, hperm, horder c rfl⟩
      rw [h'.listCount_eq, h.listCount_eq, hperm.length_eq]
    · obtain ⟨hlt, horder⟩ := hcond.resolve_left hlen
      obtain ⟨l', hrun, -, hcur, hpos, h'⟩ := h.listSort_long (Nat.not_lt.mp hlen) hlt c.cmp
      refine ⟨l', ps, xs, hrun, h', hcur, hpos, ?_, .refl xs, horder⟩
      rw [h'.listCount_eq, h.listCount_eq]
  · intro hlt hsorts
    by_cases hlen : ps.length < 2 ^ 31
    · exact Or.inl hlen
    · obtain ⟨l', ps', ys, hrun, h', -, -, -, -, horder⟩ := hsorts
      obtain ⟨l'', hrun', -, -, -, h''⟩ := h.listSort_long (Nat.not_lt.mp hlen) hlt c.cmp
      rw [hrun] at hrun'
      cases hrun'
      rw [(h'.unique h'').2] at horder
      exact Or.inr horder

/-! ## A long list -/

/-- A list of these values, in entries at successive addresses. -/
def ofValues (xs : List (Option V)) : LinkedList V where
  entries := {
    cell := fun a => xs[a]?.map fun v =>
      ownedCell (if a = 0 then none else some (a - 1))
        (if a + 1 < xs.length then some (a + 1) else none) v
    brk := xs.length
    unused := fun a ha => by rw [List.getElem?_eq_none ha]; rfl }
  head := if xs.length = 0 then none else some 0
  tail := if xs.length = 0 then none else some (xs.length - 1)
  cur := none
  pos := 0
  length := xs.length

theorem ofValues_entry {a : Addr} (ha : a < xs.length) :
    (ofValues xs).entries a = some (ownedCell (if a = 0 then none else some (a - 1))
      (if a + 1 < xs.length then some (a + 1) else none) xs[a]) := by
  show xs[a]?.map _ = _
  rw [List.getElem?_eq_getElem ha]
  rfl

theorem getElem?_range_ite (k i : ℕ) :
    (List.range k)[i]? = if i < k then some i else none := by
  by_cases hi : i < k
  · rw [if_pos hi, List.getElem?_range hi]
  · rw [if_neg hi, List.getElem?_eq_none (by rw [List.length_range]; omega)]

theorem before_range {k i : ℕ} (hi : i ≤ k) :
    before (List.range k) i = if i = 0 then none else some (i - 1) := by
  cases i with
  | zero => rfl
  | succ i => rw [before_succ, List.getElem?_range hi, if_neg (Nat.succ_ne_zero i)]; rfl

theorem represents_ofValues (xs : List (Option V)) :
    Represents (ofValues xs) (List.range xs.length) xs where
  linked := by
    refine ⟨List.nodup_range, ?_⟩
    intro i a ha
    obtain ⟨hi, heq⟩ := List.getElem?_eq_some_iff.mp ha
    rw [List.getElem_range] at heq
    subst heq
    rw [List.length_range] at hi
    rw [links, ofValues_entry hi, before_range (Nat.le_of_lt hi), getElem?_range_ite]
    rfl
  values := by
    apply List.ext_getElem
    · simp
    · intro i hi hi'
      have hlt : i < xs.length := by simpa using hi
      simp [valueAt, ofValues_entry hlt, ownedCell]
  head := by
    show (if xs.length = 0 then none else some 0) = _
    rw [getElem?_range_ite]
    by_cases hlen : xs.length = 0
    · rw [if_pos hlen, if_neg (by omega)]
    · rw [if_neg hlen, if_pos (by omega)]
  tail := by
    rw [List.length_range, before_range (Nat.le_refl _)]
    rfl
  length := List.length_range.symm
  cursor := fun _ ha => absurd ha (by simp [ofValues])

theorem owned_ofValues (xs : List (Option V)) : Owned (ofValues xs) (List.range xs.length) := by
  intro a ha
  exact ⟨_, ofValues_entry (List.mem_range.mp ha), rfl⟩

/-- The ascending order of numbers; a null pointer counts as zero. -/
def ascending : Comparator (Option ℕ) where
  cmp := fun a b => (b.getD 0 : ℤ) - a.getD 0
  dual := fun a b => by omega
  trans := fun a b c => by omega

theorem listSort_sorts_iff_two :
    (([some 2, some 1] : List (Option ℕ)).length < 2 ^ 31 ∨
        (([some 2, some 1] : List (Option ℕ)).length < 2 ^ 32 ∧
          InOrder ascending.cmp [some 2, some 1]) →
      SortsList ascending.cmp (ofValues [some 2, some 1]) [some 2, some 1]) ∧
    (([some 2, some 1] : List (Option ℕ)).length < 2 ^ 32 →
      SortsList ascending.cmp (ofValues [some 2, some 1]) [some 2, some 1] →
      ([some 2, some 1] : List (Option ℕ)).length < 2 ^ 31 ∨
        InOrder ascending.cmp [some 2, some 1]) :=
  listSort_sorts_iff ascending (ofValues [some 2, some 1]) (List.range 2) [some 2, some 1]
    (represents_ofValues _) (owned_ofValues _)

/-- A list of `2 ^ 31` entries, of which only the first is out of place, is not sorted. -/
theorem long_list_unsorted :
    Represents (ofValues (some 1 :: List.replicate (2 ^ 31 - 1) (some 0)))
        (List.range (some 1 :: List.replicate (2 ^ 31 - 1) (some 0)).length)
        (some 1 :: List.replicate (2 ^ 31 - 1) (some 0)) ∧
      Owned (ofValues (some 1 :: List.replicate (2 ^ 31 - 1) (some 0)))
        (List.range (some 1 :: List.replicate (2 ^ 31 - 1) (some 0)).length) ∧
      ¬ SortsList ascending.cmp (ofValues (some 1 :: List.replicate (2 ^ 31 - 1) (some 0)))
        (some 1 :: List.replicate (2 ^ 31 - 1) (some 0)) := by
  refine ⟨represents_ofValues _, owned_ofValues _, ?_⟩
  intro hsorts
  have hlen : (some 1 :: List.replicate (2 ^ 31 - 1) (some 0) : List (Option ℕ)).length = 2 ^ 31 := by
    rw [List.length_cons, List.length_replicate]
    omega
  obtain ⟨l', hrun, -, -, -, h'⟩ := (represents_ofValues _).listSort_long
    (by rw [List.length_range, hlen]) (by rw [List.length_range, hlen]; omega) ascending.cmp
  obtain ⟨l'', ps, ys, hrun', h'', -, -, -, -, horder⟩ := hsorts
  rw [hrun] at hrun'
  cases hrun'
  rw [← (h'.unique h'').2] at horder
  have hzero : some 0 ∈ List.replicate (2 ^ 31 - 1) (some 0) :=
    List.mem_replicate.mpr ⟨by omega, rfl⟩
  have hle : (0 : ℤ) ≤ ascending.cmp (some 1) (some 0) :=
    (List.pairwise_cons.mp horder).1 (some 0) hzero
  exact absurd hle (by decide)

end LinkedList
end LibHL
