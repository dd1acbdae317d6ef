import LibHL.LinkedList.Arranged
import LibHL.Support.Comparator
import Mathlib.Data.List.Perm.Basic
import Mathlib.Data.List.TakeWhile

/-!
# The partition loop of the quicksort

The loop keeps four parts: what it has found to belong before the pivot, what it has not
looked at on either side of it, and what belongs behind.  Every round makes the two middle
parts smaller, and the loop ends when they are empty.
-/

namespace LibHL
namespace LinkedList

variable {V : Type} {l : LinkedList V} {es : Heap (ListEntry V)}
  {rest : Multiset (Addr × ListEntry V)} {cs ds : List (Addr × Option V)}
  {follow : ListEntry V → Option Addr} {a b p : Addr}
  {u v w : Option V} {stop : Option Addr}

/-! ## The small loops -/

theorem scanTo_eq (passes : Option V → Bool)
    (hfollow : Follows es follow ListEntry.value cs (some p))
    (hp : p ∉ cs.map Prod.fst) {fuel : ℕ} (hfuel : cs.length < fuel) :
    scanTo es follow passes p fuel (firstAddr cs (some p)) =
      some (firstAddr (cs.dropWhile fun c => passes c.2) (some p)) := by
  induction cs generalizing fuel with
  | nil =>
      obtain ⟨n, rfl⟩ := Nat.exists_eq_add_of_lt hfuel
      exact if_pos rfl
  | cons c cs ih =>
      obtain ⟨⟨e, he, hval, hnext⟩, hrest⟩ := hfollow
      obtain ⟨fuel, rfl⟩ : ∃ n, fuel = n + 1 := ⟨fuel - 1, by omega⟩
      have hne : ¬ c.1 = p := fun heq => hp (heq ▸ List.mem_cons_self)
      have hp' : p ∉ cs.map Prod.fst := fun hmem => hp (List.mem_cons_of_mem _ hmem)
      rw [firstAddr_cons, scanTo, if_neg hne, he, Option.bind_eq_bind, Option.bind_some, hval,
        hnext]
      cases hpass : passes c.2 with
      | true =>
          rw [if_pos rfl, ih hrest hp' (Nat.lt_of_succ_lt_succ hfuel), List.dropWhile_cons,
            if_pos hpass]
      | false =>
          rw [List.dropWhile_cons, hpass]
          rfl

theorem countTo_eq (hfollow : Follows es ListEntry.next ListEntry.value cs (some p))
    (hp : p ∉ cs.map Prod.fst) {fuel : ℕ} (hfuel : cs.length < fuel) :
    countTo es p fuel (firstAddr cs (some p)) = some cs.length := by
  induction cs generalizing fuel with
  | nil =>
      obtain ⟨n, rfl⟩ := Nat.exists_eq_add_of_lt hfuel
      exact if_pos rfl
  | cons c cs ih =>
      obtain ⟨⟨e, he, -, hnext⟩, hrest⟩ := hfollow
      obtain ⟨fuel, rfl⟩ : ∃ n, fuel = n + 1 := ⟨fuel - 1, by omega⟩
      have hne : ¬ c.1 = p := fun heq => hp (heq ▸ List.mem_cons_self)
      have hp' : p ∉ cs.map Prod.fst := fun hmem => hp (List.mem_cons_of_mem _ hmem)
      have hcount := ih hrest hp' (Nat.lt_of_succ_lt_succ hfuel)
      simp [countTo, hne, he, hnext, hcount]

theorem goAlong_eq (hfollow : Follows es follow ListEntry.value cs stop) {n : ℕ}
    (hn : n < cs.length) :
    goAlong es follow n (firstAddr cs stop) = some (cs.map Prod.fst)[n]? := by
  induction n generalizing cs with
  | zero =>
      obtain ⟨c, cs, rfl⟩ := List.exists_cons_of_length_pos hn
      obtain ⟨⟨e, he, -, -⟩, -⟩ := hfollow
      simp [goAlong, he]
  | succ n ih =>
      obtain ⟨c, cs, rfl⟩ := List.exists_cons_of_length_pos (Nat.zero_lt_of_lt hn)
      obtain ⟨⟨e, he, -, hnext⟩, hrest⟩ := hfollow
      have hn' : n < cs.length := Nat.lt_of_succ_lt_succ hn
      have hgo := ih hrest hn'
      obtain ⟨d, ds, rfl⟩ := List.exists_cons_of_length_pos (Nat.zero_lt_of_lt hn')
      rw [firstAddr_cons] at hnext hgo
      simp only [goAlong, firstAddr_cons, he, hnext, Option.bind_eq_bind, Option.bind_some, hgo]
      rfl

/-- What a scan passes over, and where it stops. -/
theorem split_dropWhile {α : Type*} (cs : List α) (passes : α → Bool) :
    ∃ ds ws, cs = ds ++ ws ∧ ws = cs.dropWhile passes ∧ (∀ c ∈ ds, passes c = true) ∧
      ∀ c ts, ws = c :: ts → passes c = false := by
  refine ⟨cs.takeWhile passes, cs.dropWhile passes, List.takeWhile_append_dropWhile.symm, rfl,
    fun c hc => List.mem_takeWhile_imp hc, ?_⟩
  intro c ts heq
  have hne : cs.dropWhile passes ≠ [] := heq ▸ List.cons_ne_nil c ts
  have hhead := List.head_dropWhile_not passes hne
  simp only [heq, List.head_cons] at hhead
  exact hhead

/-! ## Rearrangements -/

/-- The same entries and the same values, perhaps in another order and otherwise paired. -/
structure Rearranges (cs ds : List (Addr × Option V)) : Prop where
  entries : (ds.map Prod.fst).Perm (cs.map Prod.fst)
  values : (ds.map Prod.snd).Perm (cs.map Prod.snd)

namespace Rearranges

variable {cs' ds' ws : List (Addr × Option V)}

theorem of_perm (h : ds.Perm cs) : Rearranges cs ds := ⟨h.map _, h.map _⟩

theorem refl (cs : List (Addr × Option V)) : Rearranges cs cs := of_perm (.refl cs)

theorem trans (h : Rearranges cs ds) (h' : Rearranges ds ws) : Rearranges cs ws :=
  ⟨h'.entries.trans h.entries, h'.values.trans h.values⟩

theorem append (h : Rearranges cs ds) (h' : Rearranges cs' ds') :
    Rearranges (cs ++ cs') (ds ++ ds') := by
  constructor
  · rw [List.map_append, List.map_append]
    exact h.entries.append h'.entries
  · rw [List.map_append, List.map_append]
    exact h.values.append h'.values

theorem length_eq (h : Rearranges cs ds) : ds.length = cs.length := by
  have hlen := h.entries.length_eq
  rwa [List.length_map, List.length_map] at hlen

theorem forall_values {P : Option V → Prop} (h : Rearranges cs ds) (hall : ∀ c ∈ cs, P c.2) :
    ∀ c ∈ ds, P c.2 := by
  intro c hc
  have hmem : c.2 ∈ cs.map Prod.snd := h.values.mem_iff.mp (List.mem_map_of_mem hc)
  obtain ⟨d, hd, heq⟩ := List.mem_map.mp hmem
  exact heq ▸ hall d hd

theorem swap (ws ds cs : List (Addr × Option V)) (a b : Addr) (u v : Option V) :
    Rearranges (ws ++ (a, u) :: (ds ++ (b, v) :: cs)) (ws ++ (a, v) :: (ds ++ (b, u) :: cs)) := by
  constructor
  · simp
  · simp only [List.map_append, List.map_cons]
    refine List.Perm.append_left _ ?_
    refine (List.perm_middle.cons v).trans ((List.Perm.swap u v _).trans ?_)
    exact List.perm_middle.symm.cons u

end Rearranges

/-! ## Partition -/

section Partition

variable {comparator : Option V → Option V → ℤ} {outer outer' left mid mid' right :
  List (Addr × Option V)} {s : Partition V}

/-- The state of the partition loop in the part of the list between `outer` and `outer'`:
`left` belongs before the pivot `p` and `right` behind it, `mid` and `mid'` have not been
looked at. -/
structure Partitions (comparator : Option V → Option V → ℤ) (p : Addr) (u : Option V)
    (outer outer' : List (Addr × Option V)) (rest : Multiset (Addr × ListEntry V))
    (s : Partition V) (left mid mid' right : List (Addr × Option V)) : Prop where
  arranged : Arranged s.list
    (outer ++ (left ++ (mid ++ (p, u) :: (mid' ++ (right ++ outer'))))) rest
  head : s.head = firstAddr (left ++ mid) (some p)
  tail : s.tail = lastAddr (some p) (mid' ++ right)
  p1 : s.p1 = firstAddr mid (some p)
  p2 : s.p2 = lastAddr (some p) mid'
  left_le : ∀ c ∈ left, 0 ≤ comparator c.2 u
  right_ge : ∀ c ∈ right, comparator c.2 u ≤ 0

namespace Partitions

/-- The pivot stands at one place only. -/
theorem pivot_notMem (h : Partitions comparator p u outer outer' rest s left mid mid' right) :
    p ∉ (outer ++ (left ++ mid)).map Prod.fst ∧
      p ∉ (mid' ++ (right ++ outer')).map Prod.fst := by
  have hnodup := h.arranged.nodup
  have hassoc : outer ++ (left ++ (mid ++ (p, u) :: (mid' ++ (right ++ outer')))) =
      outer ++ (left ++ mid) ++ (p, u) :: (mid' ++ (right ++ outer')) := by
    simp only [List.append_assoc]
  rw [hassoc] at hnodup
  exact notMem_of_nodup hnodup

theorem pivot_notMem_parts
    (h : Partitions comparator p u outer outer' rest s left mid mid' right) :
    p ∉ left.map Prod.fst ∧ p ∉ mid.map Prod.fst ∧ p ∉ mid'.map Prod.fst ∧
      p ∉ right.map Prod.fst := by
  obtain ⟨hbefore, hbehind⟩ := h.pivot_notMem
  simp only [List.map_append, List.mem_append, not_or] at hbefore hbehind
  exact ⟨hbefore.2.1, hbefore.2.2, hbehind.1, hbehind.2.1⟩

theorem follows_mid (h : Partitions comparator p u outer outer' rest s left mid mid' right) :
    Follows s.list.entries ListEntry.next ListEntry.value mid (some p) := by
  have hs := h.arranged.cells
  rw [← List.append_assoc] at hs
  exact follows_next ListEntry.next ListEntry.value (fun _ _ _ => rfl) (fun _ _ _ => rfl) hs

theorem follows_mid' (h : Partitions comparator p u outer outer' rest s left mid mid' right) :
    Follows s.list.entries ListEntry.prev ListEntry.value mid'.reverse (some p) := by
  have hs := h.arranged.cells
  have hassoc : outer ++ (left ++ (mid ++ (p, u) :: (mid' ++ (right ++ outer')))) =
      outer ++ left ++ mid ++ [(p, u)] ++ (mid' ++ (right ++ outer')) := by
    simp only [List.append_assoc, List.singleton_append]
  rw [hassoc] at hs
  have hfollows := follows_prev ListEntry.prev ListEntry.value
    (fun _ _ _ => rfl) (fun _ _ _ => rfl) hs
  rwa [lastAddr_append] at hfollows

/-- What the two scans have passed over belongs to the outer parts. -/
theorem scans (h : Partitions comparator p u outer outer' rest s left mid mid' right)
    {fuel : ℕ} (hfuel : mid.length + mid'.length < fuel) :
    ∃ mid₁ mid₂ left₁ right₁, mid = left₁ ++ mid₁ ∧ mid' = mid₂ ++ right₁ ∧
      scanTo s.list.entries ListEntry.next (fun v => 0 < comparator v u) p fuel s.p1 =
        some (firstAddr mid₁ (some p)) ∧
      scanTo s.list.entries ListEntry.prev (fun v => comparator v u < 0) p fuel s.p2 =
        some (lastAddr (some p) mid₂) ∧
      Partitions comparator p u outer outer' rest
        { s with
          p1 := firstAddr mid₁ (some p)
          p2 := lastAddr (some p) mid₂ }
        (left ++ left₁) mid₁ mid₂ (right₁ ++ right) ∧
      (∀ c ds, mid₁ = c :: ds → comparator c.2 u ≤ 0) ∧
      ∀ c ds, mid₂ = ds ++ [c] → 0 ≤ comparator c.2 u := by
  obtain ⟨-, hmid, hmid', -⟩ := h.pivot_notMem_parts
  have hmidrev : p ∉ mid'.reverse.map Prod.fst := by
    rwa [List.map_reverse, List.mem_reverse]
  have hscan := scanTo_eq (fun v => 0 < comparator v u) h.follows_mid hmid
    (Nat.lt_of_le_of_lt (Nat.le_add_right _ _) hfuel)
  have hscan' := scanTo_eq (fun v => comparator v u < 0) h.follows_mid' hmidrev
    (Nat.lt_of_le_of_lt (List.length_reverse.le.trans (Nat.le_add_left _ _)) hfuel)
  obtain ⟨left₁, mid₁, rfl, hdrop, hpassed, hstop⟩ :=
    split_dropWhile mid fun c => 0 < comparator c.2 u
  obtain ⟨right₁, mid₂, hsplit, hdrop', hpassed', hstop'⟩ :=
    split_dropWhile mid'.reverse fun c => comparator c.2 u < 0
  obtain rfl : mid' = mid₂.reverse ++ right₁.reverse := by
    rw [← List.reverse_append, ← hsplit, List.reverse_reverse]
  rw [← h.p1, ← hdrop] at hscan
  rw [firstAddr_reverse, ← h.p2, ← hdrop', ← List.reverse_reverse mid₂, firstAddr_reverse] at hscan'
  refine ⟨mid₁, mid₂.reverse, left₁, right₁.reverse, rfl, rfl, hscan, hscan', ?_, ?_, ?_⟩
  · refine ⟨?_, ?_, ?_, rfl, rfl, ?_, ?_⟩
    · have harr := h.arranged
      simp only [List.append_assoc] at harr ⊢
      exact harr
    · rw [h.head, List.append_assoc]
    · rw [h.tail, List.append_assoc]
    · intro c hc
      rcases List.mem_append.mp hc with hc | hc
      · exact h.left_le c hc
      · exact Int.le_of_lt (of_decide_eq_true (hpassed c hc))
    · intro c hc
      rcases List.mem_append.mp hc with hc | hc
      · exact Int.le_of_lt (of_decide_eq_true (hpassed' c (List.mem_reverse.mp hc)))
      · exact h.right_ge c hc
  · intro c ds heq
    exact Int.not_lt.mp (of_decide_eq_false (hstop c ds heq))
  · intro c ds heq
    have hrev : mid₂ = c :: ds.reverse := by
      rw [← List.reverse_reverse mid₂, heq, List.reverse_append]
      rfl
    exact Int.not_lt.mp (of_decide_eq_false (hstop' c ds.reverse hrev))

end Partitions

/-! ### The four ways a round goes -/

section Rounds

variable {pivot : Addr} {fuel : ℕ} {s₂ : Partition V} {p1 p2 : Option Addr}

/-- A round whose scans both stop at an entry. -/
theorem partitionLoop_round
    (hscan : scanTo s.list.entries ListEntry.next (fun v => 0 < comparator v u) pivot (fuel + 1)
      s.p1 = some (some a))
    (hscan' : scanTo s.list.entries ListEntry.prev (fun v => comparator v u < 0) pivot (fuel + 1)
      s.p2 = some (some b)) :
    partitionLoop comparator u pivot (fuel + 1) s =
      if a = b then
        some { s with p1 := some a, p2 := some b }
      else if a = pivot then
        moveBeforePivot { s with p1 := some a, p2 := some b } pivot b >>=
          partitionLoop comparator u pivot fuel
      else if b = pivot then
        moveBehindPivot { s with p1 := some a, p2 := some b } pivot a >>=
          partitionLoop comparator u pivot fuel
      else
        swapAcrossPivot { s with p1 := some a, p2 := some b } a b >>=
          partitionLoop comparator u pivot fuel := by
  simp only [partitionLoop, hscan, hscan', Option.bind_eq_bind, Option.bind_some]

theorem partitionLoop_meet
    (hscan : scanTo s.list.entries ListEntry.next (fun v => 0 < comparator v u) pivot (fuel + 1)
      s.p1 = some (some a))
    (hscan' : scanTo s.list.entries ListEntry.prev (fun v => comparator v u < 0) pivot (fuel + 1)
      s.p2 = some (some a)) :
    partitionLoop comparator u pivot (fuel + 1) s = some { s with
      p1 := some a
      p2 := some a } := by
  rw [partitionLoop_round hscan hscan', if_pos rfl]

theorem partitionLoop_before
    (hscan : scanTo s.list.entries ListEntry.next (fun v => 0 < comparator v u) pivot (fuel + 1)
      s.p1 = some (some pivot))
    (hscan' : scanTo s.list.entries ListEntry.prev (fun v => comparator v u < 0) pivot (fuel + 1)
      s.p2 = some (some b)) (hne : pivot ≠ b)
    (hmove : moveBeforePivot { s with p1 := some pivot, p2 := some b } pivot b = some s₂) :
    partitionLoop comparator u pivot (fuel + 1) s = partitionLoop comparator u pivot fuel s₂ := by
  rw [partitionLoop_round hscan hscan', if_neg hne, if_pos rfl, hmove]
  rfl

theorem partitionLoop_behind
    (hscan : scanTo s.list.entries ListEntry.next (fun v => 0 < comparator v u) pivot (fuel + 1)
      s.p1 = some (some a))
    (hscan' : scanTo s.list.entries ListEntry.prev (fun v => comparator v u < 0) pivot (fuel + 1)
      s.p2 = some (some pivot)) (hne : a ≠ pivot)
    (hmove : moveBehindPivot { s with p1 := some a, p2 := some pivot } pivot a = some s₂) :
    partitionLoop comparator u pivot (fuel + 1) s = partitionLoop comparator u pivot fuel s₂ := by
  rw [partitionLoop_round hscan hscan', if_neg hne, if_neg hne, if_pos rfl, hmove]
  rfl

theorem partitionLoop_swap
    (hscan : scanTo s.list.entries ListEntry.next (fun v => 0 < comparator v u) pivot (fuel + 1)
      s.p1 = some (some a))
    (hscan' : scanTo s.list.entries ListEntry.prev (fun v => comparator v u < 0) pivot (fuel + 1)
      s.p2 = some (some b)) (hab : a ≠ b) (ha : a ≠ pivot) (hb : b ≠ pivot)
    (hmove : swapAcrossPivot { s with p1 := some a, p2 := some b } a b = some s₂) :
    partitionLoop comparator u pivot (fuel + 1) s = partitionLoop comparator u pivot fuel s₂ := by
  rw [partitionLoop_round hscan hscan', if_neg hab, if_neg ha, if_neg hb, hmove]
  rfl

end Rounds

namespace Partitions

/-- A round that moves an entry from behind the pivot. -/
theorem moveBefore
    (h : Partitions comparator p u outer outer' rest s left [] (mid' ++ [(b, v)]) right)
    (hv : 0 ≤ comparator v u) :
    ∃ s', moveBeforePivot s p b = some s' ∧
      Partitions comparator p u outer outer' rest s' (left ++ [(b, v)]) [] mid' right := by
  have harr : Arranged s.list
      ((outer ++ left) ++ (p, u) :: mid' ++ (b, v) :: (right ++ outer')) rest := by
    have harr := h.arranged
    simp only [List.append_assoc, List.cons_append, List.nil_append] at harr ⊢
    exact harr
  obtain ⟨hleft, -, -, -⟩ := h.pivot_notMem_parts
  have hright : b ∉ right.map Prod.fst := by
    have hnot := (notMem_of_nodup harr.nodup).2
    rw [List.map_append, List.mem_append, not_or] at hnot
    exact hnot.1
  obtain ⟨l', hrun, hnew⟩ := moveBeforePivot_spec harr
  refine ⟨_, hrun, ?_, ?_, ?_, h.p1, rfl, ?_, h.right_ge⟩
  · simp only [List.append_assoc, List.cons_append, List.nil_append] at hnew ⊢
    exact hnew
  · have hhead := h.head
    rw [List.append_nil] at hhead
    show (if s.head = some p then some b else s.head) = _
    rw [hhead, firstAddr_replaced hleft]
    simp
  · have htail := h.tail
    rw [List.append_assoc, lastAddr_append, List.singleton_append, lastAddr_cons] at htail
    show (if s.tail = some b then lastAddr (some p) mid' else s.tail) = _
    rw [htail, lastAddr_replaced hright, lastAddr_append]
  · intro c hc
    rcases List.mem_append.mp hc with hc | hc
    · exact h.left_le c hc
    · cases List.mem_singleton.mp hc
      exact hv

/-- A round that moves an entry from before the pivot. -/
theorem moveBehind
    (h : Partitions comparator p u outer outer' rest s left ((a, v) :: mid) [] right)
    (hv : comparator v u ≤ 0) :
    ∃ s', moveBehindPivot s p a = some s' ∧
      Partitions comparator p u outer outer' rest s' left mid [] ((a, v) :: right) := by
  have harr : Arranged s.list
      ((outer ++ left) ++ (a, v) :: (mid ++ (p, u) :: (right ++ outer'))) rest := by
    have harr := h.arranged
    simp only [List.append_assoc, List.cons_append, List.nil_append] at harr ⊢
    exact harr
  obtain ⟨-, -, -, hright⟩ := h.pivot_notMem_parts
  have hleft : a ∉ left.map Prod.fst := by
    have hnot := (notMem_of_nodup harr.nodup).1
    rw [List.map_append, List.mem_append, not_or] at hnot
    exact hnot.2
  obtain ⟨l', hrun, hnew⟩ := moveBehindPivot_spec harr
  refine ⟨_, hrun, ?_, ?_, ?_, rfl, h.p2, h.left_le, ?_⟩
  · simp only [List.append_assoc, List.cons_append, List.nil_append] at hnew ⊢
    exact hnew
  · have hhead := h.head
    rw [firstAddr_append, firstAddr_cons] at hhead
    show (if s.head = some a then firstAddr mid (some p) else s.head) = _
    rw [hhead, firstAddr_replaced hleft, firstAddr_append]
  · have htail := h.tail
    rw [List.nil_append] at htail
    show (if s.tail = some p then some a else s.tail) = _
    rw [htail, lastAddr_replaced hright]
    rfl
  · intro c hc
    rcases List.mem_cons.mp hc with rfl | hc
    · exact hv
    · exact h.right_ge c hc

/-- A round that exchanges two values. -/
theorem swapAcross
    (h : Partitions comparator p u outer outer' rest s left ((a, v) :: mid)
      (mid' ++ [(b, w)]) right) (hv : comparator v u ≤ 0) (hw : 0 ≤ comparator w u) :
    ∃ s', a ≠ b ∧ swapAcrossPivot s a b = some s' ∧
      Partitions comparator p u outer outer' rest s' (left ++ [(a, w)]) mid mid'
        ((b, v) :: right) := by
  have harr : Arranged s.list
      ((outer ++ left) ++ (a, v) :: ((mid ++ (p, u) :: mid') ++ (b, w) :: (right ++ outer')))
      rest := by
    have harr := h.arranged
    simp only [List.append_assoc, List.cons_append, List.nil_append] at harr ⊢
    exact harr
  obtain ⟨l', hrun, hnew⟩ := swapAcrossPivot_spec harr
  rw [firstAddr_append, firstAddr_cons, lastAddr_append, lastAddr_cons] at hrun
  have hne : a ≠ b := by
    rintro rfl
    exact (notMem_of_nodup harr.nodup).2 (by simp)
  refine ⟨_, hne, hrun, ?_, ?_, ?_, rfl, rfl, ?_, ?_⟩
  · simp only [List.append_assoc, List.cons_append, List.nil_append] at hnew ⊢
    exact hnew
  · have hhead := h.head
    simp only [firstAddr_append, firstAddr_cons] at hhead ⊢
    exact hhead
  · have htail := h.tail
    simp only [lastAddr_append, lastAddr_cons, lastAddr_nil] at htail ⊢
    exact htail
  · intro c hc
    rcases List.mem_append.mp hc with hc | hc
    · exact h.left_le c hc
    · cases List.mem_singleton.mp hc
      exact hw
  · intro c hc
    rcases List.mem_cons.mp hc with rfl | hc
    · exact hv
    · exact h.right_ge c hc

/-- One round: either the loop ends, or less is left to look at. -/
theorem round {fuel : ℕ}
    (h : Partitions comparator p u outer outer' rest s left mid mid' right)
    (hfuel : mid.length + mid'.length < fuel + 1) :
    ∃ s₂ left₂ mid₂ mid₂' right₂,
      Partitions comparator p u outer outer' rest s₂ left₂ mid₂ mid₂' right₂ ∧
      Rearranges (left ++ (mid ++ (p, u) :: (mid' ++ right)))
        (left₂ ++ (mid₂ ++ (p, u) :: (mid₂' ++ right₂))) ∧
      ((mid₂ = [] ∧ mid₂' = [] ∧
          partitionLoop comparator u p (fuel + 1) s = some s₂) ∨
        (mid₂.length + mid₂'.length < mid.length + mid'.length ∧
          partitionLoop comparator u p (fuel + 1) s = partitionLoop comparator u p fuel s₂)) := by
  obtain ⟨mid₁, mid₁', left₁, right₁, rfl, rfl, hscan, hscan', h₁, hstop, hstop'⟩ :=
    h.scans hfuel
  obtain ⟨-, hmid, hmid', -⟩ := h₁.pivot_notMem_parts
  have hre : Rearranges (left ++ (left₁ ++ mid₁ ++ (p, u) :: (mid₁' ++ right₁ ++ right)))
      (left ++ left₁ ++ (mid₁ ++ (p, u) :: (mid₁' ++ (right₁ ++ right)))) := by
    simp only [List.append_assoc]
    exact Rearranges.refl _
  simp only [List.length_append]
  rcases List.eq_nil_or_concat' mid₁' with rfl | ⟨mid₂', ⟨b, w⟩, rfl⟩
  · cases mid₁ with
    | nil =>
        exact ⟨_, _, [], [], _, h₁, hre, Or.inl ⟨rfl, rfl, partitionLoop_meet hscan hscan'⟩⟩
    | cons c mid₂ =>
        obtain ⟨s₂, hrun, h₂⟩ := h₁.moveBehind (hstop c mid₂ rfl)
        have hne : c.1 ≠ p := fun heq => hmid (heq ▸ List.mem_cons_self)
        refine ⟨s₂, _, _, _, _, h₂, hre.trans (Rearranges.of_perm ?_), Or.inr ⟨?_, ?_⟩⟩
        · have hswap := List.Perm.swap c (p, u) (right₁ ++ right)
          exact ((hswap.append_left mid₂).trans List.perm_middle).append_left (left ++ left₁)
        · simp only [List.length_cons, List.length_nil]
          omega
        · exact partitionLoop_behind hscan hscan' hne hrun
  · have hb : p ≠ b := by
      rintro rfl
      exact hmid' (by simp)
    have hlast : lastAddr (some p) (mid₂' ++ [(b, w)]) = some b := by
      rw [lastAddr_append, lastAddr_cons, lastAddr_nil]
    rw [hlast] at hscan' h₁
    cases mid₁ with
    | nil =>
        obtain ⟨s₂, hrun, h₂⟩ := h₁.moveBefore (hstop' (b, w) mid₂' rfl)
        refine ⟨s₂, _, _, _, _, h₂, hre.trans (Rearranges.of_perm ?_), Or.inr ⟨?_, ?_⟩⟩
        · have hmiddle : ((b, w) :: (mid₂' ++ (right₁ ++ right))).Perm
              (mid₂' ++ [(b, w)] ++ (right₁ ++ right)) := by
            rw [List.append_assoc]
            exact List.perm_middle.symm
          have hswap := (List.Perm.swap (p, u) (b, w) _).trans (hmiddle.cons (p, u))
          rw [List.append_assoc (left ++ left₁)]
          exact hswap.append_left (left ++ left₁)
        · simp only [List.length_nil, List.length_append, List.length_singleton]
          omega
        · exact partitionLoop_before hscan hscan' hb hrun
    | cons c mid₂ =>
        obtain ⟨s₂, hab, hrun, h₂⟩ := h₁.swapAcross (hstop c mid₂ rfl) (hstop' (b, w) mid₂' rfl)
        have hne : c.1 ≠ p := fun heq => hmid (heq ▸ List.mem_cons_self)
        refine ⟨s₂, _, _, _, _, h₂, hre.trans ?_, Or.inr ⟨?_, ?_⟩⟩
        · have hswap := Rearranges.swap (left ++ left₁) (mid₂ ++ (p, u) :: mid₂')
            (right₁ ++ right) c.1 b c.2 w
          simp only [List.append_assoc, List.cons_append, List.nil_append] at hswap ⊢
          exact hswap
        · simp only [List.length_cons, List.length_append, List.length_nil]
          omega
        · exact partitionLoop_swap hscan hscan' hab hne hb.symm hrun

/-- The loop ends, and then everything is on the side of the pivot where it belongs. -/
theorem loop {fuel : ℕ}
    (h : Partitions comparator p u outer outer' rest s left mid mid' right)
    (hfuel : mid.length + mid'.length < fuel) :
    ∃ s' left' right', partitionLoop comparator u p fuel s = some s' ∧
      Partitions comparator p u outer outer' rest s' left' [] [] right' ∧
      Rearranges (left ++ (mid ++ (p, u) :: (mid' ++ right))) (left' ++ (p, u) :: right') := by
  induction fuel generalizing s left mid mid' right with
  | zero => exact absurd hfuel (Nat.not_lt_zero _)
  | succ fuel ih =>
      obtain ⟨s₂, left₂, mid₂, mid₂', right₂, h₂, hre, hend | ⟨hless, hrun⟩⟩ := h.round hfuel
      · obtain ⟨rfl, rfl, hrun⟩ := hend
        exact ⟨s₂, left₂, right₂, hrun, h₂, hre⟩
      · obtain ⟨s', left', right', hrun', h', hre'⟩ :=
          ih h₂ (Nat.lt_of_lt_of_le hless (Nat.le_of_lt_succ hfuel))
        exact ⟨s', left', right', hrun.trans hrun', h', hre.trans hre'⟩

end Partitions
end Partition

end LinkedList
end LibHL
