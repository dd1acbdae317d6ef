import LibHL.LinkedList.Foreach

/-!
# Iterations that go through a whole slice

A handler that answers `1` or `-1` only wants to see every item.  Each item it removes makes
the slice one shorter while the index goes on, so that it sees all of them exactly if enough
of the slice is left when it comes to the last one.
-/

namespace LibHL
namespace LinkedList

variable {V σ : Type}

/-! ## What is asked of an iteration -/

/-- The handler never stops the iteration. -/
def GoesAhead (item_handler : σ → Option V → ℕ → σ × ℤ) : Prop :=
  ∀ user v idx, (item_handler user v idx).2 = 1 ∨ (item_handler user v idx).2 = -1

/-- What the handler answers if it is called on all of these values in order. -/
def answers (item_handler : σ → Option V → ℕ → σ × ℤ) : σ → ℕ → List (Option V) → List ℤ
  | _, _, [] => []
  | user, idx, y :: ys => (item_handler user y idx).2 ::
      answers item_handler (item_handler user y idx).1 (idx + 1) ys

/-- Every one of the values `visited` is handed over once, in order, their number is
returned, and those for which the answer was `1` stay in the list. -/
def VisitsAll (run : Option (Iteration V σ × ℤ)) (front visited back : List (Option V)) :
    Prop :=
  ∃ s, run = some (s, (visited.length : ℤ)) ∧ s.calls.map Prod.fst = visited ∧
    ∃ ps, Represents s.list ps
      (front ++ ((s.calls.filter fun c => c.2 = 1).map Prod.fst ++ back))

/-! ## How many calls are made -/

variable {item_handler : σ → Option V → ℕ → σ × ℤ} {user : σ} {idx sliceLength : ℕ}
  {ys : List (Option V)}

theorem map_fst_visit (item_handler : σ → Option V → ℕ → σ × ℤ) (user : σ)
    (idx sliceLength : ℕ) (ys : List (Option V)) :
    (visit item_handler user idx sliceLength ys).map Prod.fst =
      ys.take (visit item_handler user idx sliceLength ys).length := by
  induction ys generalizing user idx sliceLength with
  | nil => rfl
  | cons y ys ih =>
      rw [visit]
      by_cases hidx : idx < sliceLength
      · rw [if_pos hidx, List.map_cons, List.length_cons, List.take_succ_cons]
        by_cases hstop : (item_handler user y idx).2 = 0 ∨ (item_handler user y idx).2 = -2
        · rw [if_pos hstop]
          rfl
        · rw [if_neg hstop, ih]
      · rw [if_neg hidx]
        rfl

theorem length_visit_le (item_handler : σ → Option V → ℕ → σ × ℤ) (user : σ)
    (idx sliceLength : ℕ) (ys : List (Option V)) :
    (visit item_handler user idx sliceLength ys).length ≤ sliceLength - idx := by
  induction ys generalizing user idx sliceLength with
  | nil => exact Nat.zero_le _
  | cons y ys ih =>
      rw [visit]
      by_cases hidx : idx < sliceLength
      · rw [if_pos hidx, List.length_cons]
        by_cases hstop : (item_handler user y idx).2 = 0 ∨ (item_handler user y idx).2 = -2
        · rw [if_pos hstop, List.length_nil]
          omega
        · rw [if_neg hstop]
          have hshorter : (if (item_handler user y idx).2 = -1 then sliceLength - 1
              else sliceLength) ≤ sliceLength := by
            split
            · exact Nat.sub_le _ _
            · exact Nat.le_refl _
          have hle := ih (item_handler user y idx).1 (idx + 1)
            (if (item_handler user y idx).2 = -1 then sliceLength - 1 else sliceLength)
          omega
      · rw [if_neg hidx]
        exact Nat.zero_le _

theorem visit_codes (hgo : GoesAhead item_handler) :
    ∀ c ∈ visit item_handler user idx sliceLength ys, c.2 = 1 ∨ c.2 = -1 := by
  induction ys generalizing user idx sliceLength with
  | nil => exact fun c hc => absurd hc List.not_mem_nil
  | cons y ys ih =>
      rw [visit]
      by_cases hidx : idx < sliceLength
      · rw [if_pos hidx]
        intro c hc
        rcases List.mem_cons.mp hc with rfl | hc
        · exact hgo user y idx
        · by_cases hstop : (item_handler user y idx).2 = 0 ∨ (item_handler user y idx).2 = -2
          · rw [if_pos hstop] at hc
            exact absurd hc List.not_mem_nil
          · rw [if_neg hstop] at hc
            exact ih c hc
      · rw [if_neg hidx]
        exact fun c hc => absurd hc List.not_mem_nil

theorem keptValues_visit (hgo : GoesAhead item_handler) :
    keptValues (visit item_handler user idx sliceLength ys) =
      ((visit item_handler user idx sliceLength ys).filter fun c => c.2 = 1).map Prod.fst := by
  refine congrArg (List.map Prod.fst) (List.filter_congr fun c hc => ?_)
  rcases visit_codes hgo c hc with hcode | hcode
  · simp [hcode]
  · simp [hcode]

/-- The handler sees the first `n + 1` values exactly if enough of the slice is left after the
items that it has removed before the last of them. -/
theorem lt_length_visit_iff (hgo : GoesAhead item_handler) {n : ℕ} (hn : n < ys.length) :
    n < (visit item_handler user idx sliceLength ys).length ↔
      idx + n + ((answers item_handler user idx ys).take n).count (-1) < sliceLength := by
  induction ys generalizing user idx sliceLength n with
  | nil => exact absurd hn (Nat.not_lt_zero _)
  | cons y ys ih =>
      rw [visit, answers]
      by_cases hidx : idx < sliceLength
      · have hstop : ¬ ((item_handler user y idx).2 = 0 ∨ (item_handler user y idx).2 = -2) := by
          have hcode := hgo user y idx
          omega
        rw [if_pos hidx, if_neg hstop, List.length_cons]
        cases n with
        | zero =>
            rw [List.take_zero, List.count_nil]
            exact iff_of_true (Nat.succ_pos _) hidx
        | succ n =>
            rw [Nat.add_lt_add_iff_right, ih (Nat.lt_of_succ_lt_succ hn), List.take_succ_cons,
              List.count_cons]
            by_cases hremove : (item_handler user y idx).2 = -1
            · rw [if_pos hremove, hremove]
              simp only [beq_self_eq_true, if_true]
              omega
            · rw [if_neg hremove, if_neg (by simpa using hremove)]
              omega
      · rw [if_neg hidx]
        refine iff_of_false (Nat.not_lt_zero _) ?_
        omega

/-- The handler sees all values that the slice has room for exactly if few are removed. -/
theorem length_visit_eq_iff (hgo : GoesAhead item_handler) {length : ℕ} :
    (visit item_handler user 0 length ys).length = (ys.take length).length ↔
      (ys.take length).length + ((answers item_handler user 0 ys).take
        ((ys.take length).length - 1)).count (-1) ≤ length := by
  have hle := length_visit_le item_handler user 0 length ys
  have hle' : (visit item_handler user 0 length ys).length ≤ ys.length := by
    have hfst := congrArg List.length (map_fst_visit item_handler user 0 length ys)
    rw [List.length_map, List.length_take] at hfst
    omega
  rw [List.length_take]
  cases hm : min length ys.length with
  | zero =>
      refine iff_of_true (by omega) ?_
      rw [List.take_zero, List.count_nil]
      exact Nat.zero_le _
  | succ n =>
      have hiff : n < (visit item_handler user 0 length ys).length ↔
          0 + n + ((answers item_handler user 0 ys).take n).count (-1) < length :=
        lt_length_visit_iff hgo (by omega)
      rw [Nat.add_sub_cancel]
      omega

/-! ## The two iterators -/

variable {l : LinkedList V} {ps : List Addr} {xs : List (Option V)}

theorem cInt_lt (n : ℤ) : cInt n < 2 ^ 31 := by
  rw [cInt, Int.bmod_def]
  omega

theorem cInt_natCast_eq_iff {m n : ℕ} (hn : n = m) : cInt n = m ↔ m < 2 ^ 31 := by
  subst hn
  constructor
  · intro heq
    have hlt := cInt_lt (n : ℤ)
    omega
  · intro hlt
    rw [cInt, Int.bmod_def]
    omega

theorem drop_take_length (ys : List (Option V)) (length : ℕ) :
    ys.drop (ys.take length).length = ys.drop length := by
  rw [List.length_take]
  exact List.drop_eq_drop_min.symm

theorem Represents.sliceVisitsAll_iff (h : Represents l ps xs) (hlen : xs.length ≤ 2 ^ 32)
    (hgo : GoesAhead item_handler) (user : σ) (offset length : ℕ) :
    VisitsAll (sliceForeachValue l offset length item_handler user) (xs.take offset)
        ((xs.drop offset).take length) (xs.drop (offset + length)) ↔
      ((xs.drop offset).take length).length < 2 ^ 31 ∧
        ((xs.drop offset).take length).length +
          ((answers item_handler user 0 (xs.drop offset)).take
            (((xs.drop offset).take length).length - 1)).count (-1) ≤ length := by
  obtain ⟨s, hrun, hcalls, hvalues, -⟩ :=
    h.sliceForeachValue_eq (h.length_eq ▸ hlen) offset length item_handler user
  rw [← length_visit_eq_iff hgo]
  constructor
  · rintro ⟨s', hrun', hall, -⟩
    rw [hrun] at hrun'
    obtain ⟨rfl, hcount⟩ := Prod.mk.inj (Option.some.inj hrun')
    have hsame := congrArg List.length hall
    rw [List.length_map, hcalls] at hsame
    exact ⟨(cInt_natCast_eq_iff hsame).mp hcount, hsame⟩
  · rintro ⟨hsmall, hsame⟩
    rw [(cInt_natCast_eq_iff hsame).mpr hsmall] at hrun
    refine ⟨s, hrun, ?_, ?_⟩
    · rw [hcalls, map_fst_visit, hsame, List.length_take]
      exact List.take_eq_take_min.symm
    · rw [hcalls, hsame, drop_take_length, List.drop_drop, keptValues_visit hgo] at hvalues
      rw [hcalls]
      exact hvalues

/-- A list is a slice of its own length. -/
theorem Represents.listVisitsAll_iff (h : Represents l ps xs)
    (hgo : GoesAhead item_handler) (user : σ) :
    VisitsAll (listForeachValue l item_handler user) [] xs [] ↔
      xs.length < 2 ^ 31 ∧
        ((answers item_handler user 0 xs).take (xs.length - 1)).count (-1) = 0 := by
  by_cases hlen : xs.length ≤ 2 ^ 32
  · have hiff := h.sliceVisitsAll_iff hlen hgo user 0 xs.length
    have hlength : l.length = xs.length := h.length.trans h.length_eq.symm
    rw [List.take_zero, List.drop_zero, List.take_length, Nat.zero_add, List.drop_length] at hiff
    rw [listForeachValue, hlength, hiff]
    refine and_congr_right fun _ => ?_
    omega
  · refine iff_of_false ?_ (fun hand => hlen (by omega))
    -- The number is not an `int`.
    rintro ⟨s, hrun, -⟩
    simp only [listForeachValue, sliceForeachValue, Option.bind_eq_bind,
      Option.bind_eq_some_iff] at hrun
    obtain ⟨_, -, s', -, heq⟩ := hrun
    have hcount := (Prod.mk.inj (Option.some.inj heq)).2
    have hlt := cInt_lt (s'.idx : ℤ)
    omega

/-- With a handler that never stops, the iterator over a list sees everything exactly if no
item but perhaps the last is removed, and there are fewer than `2 ^ 31`.  The iterator over a
slice sees everything exactly if the items removed before the last one are no more than the
slice has room for beyond what the list holds. -/
theorem foreach_visitsAll_iff (item_handler : σ → Option V → ℕ → σ × ℤ)
    (hgo : GoesAhead item_handler) (user : σ) (l : LinkedList V) (ps : List Addr)
    (xs : List (Option V)) (h : Represents l ps xs) :
    (VisitsAll (listForeachValue l item_handler user) [] xs [] ↔
      xs.length < 2 ^ 31 ∧
        ((answers item_handler user 0 xs).take (xs.length - 1)).count (-1) = 0) ∧
    ∀ offset length, xs.length ≤ 2 ^ 32 →
      (VisitsAll (sliceForeachValue l offset length item_handler user) (xs.take offset)
          ((xs.drop offset).take length) (xs.drop (offset + length)) ↔
        ((xs.drop offset).take length).length < 2 ^ 31 ∧
          ((xs.drop offset).take length).length +
            ((answers item_handler user 0 (xs.drop offset)).take
              (((xs.drop offset).take length).length - 1)).count (-1) ≤ length) :=
  ⟨h.listVisitsAll_iff hgo user, fun offset length hlen =>
    h.sliceVisitsAll_iff hlen hgo user offset length⟩

/-- A handler that removes the item at index zero. -/
def removeFirst (_ : Unit) (_ : Option ℕ) (idx : ℕ) : Unit × ℤ :=
  ((), if idx = 0 then -1 else 1)

theorem goesAhead_removeFirst : GoesAhead removeFirst := by
  intro _ _ idx
  by_cases hidx : idx = 0
  · exact Or.inr (if_pos hidx)
  · exact Or.inl (if_neg hidx)

/-- Of three items the first is removed: the iterator over the list misses the last one, the one
over a slice with room for a fourth item sees them all. -/
theorem foreach_visitsAll_iff_three :
    ∃ l ps, Represents l ps [some 1, some 2, some 3] ∧
      ¬ VisitsAll (listForeachValue l removeFirst ()) [] [some 1, some 2, some 3] [] ∧
      VisitsAll (sliceForeachValue l 0 4 removeFirst ()) [] [some 1, some 2, some 3] [] := by
  obtain ⟨l, ps, h⟩ := Represents.exists_represents [some 1, some 2, some 3]
  obtain ⟨hlist, hslice⟩ := foreach_visitsAll_iff removeFirst goesAhead_removeFirst () l ps _ h
  refine ⟨l, ps, h, ?_, (hslice 0 4 (by decide)).mpr (by decide)⟩
  rw [hlist]
  decide

/-- Of three items, of which the first is removed, the third is never handed over. -/
theorem third_item_not_visited :
    ∃ l ps, Represents l ps [some 1, some 2, some 3] ∧ GoesAhead removeFirst ∧
      (listForeachValue l removeFirst ()).map (fun r => (r.1.calls, r.2)) =
        some ([(some 1, -1), (some 2, 1)], 2) ∧
      ¬ VisitsAll (listForeachValue l removeFirst ()) [] [some 1, some 2, some 3] [] := by
  obtain ⟨l, ps, h⟩ := Represents.exists_represents [some 1, some 2, some 3]
  refine ⟨l, ps, h, goesAhead_removeFirst, ?_, ?_⟩
  · obtain ⟨s, hrun, hcalls, -, -⟩ := h.sliceForeachValue_eq
      (by rw [← h.length_eq]; decide) 0 3 removeFirst ()
    have hlength : l.length = 3 := h.listCount_eq
    have hvisit : visit removeFirst () 0 3 [some 1, some 2, some 3] =
        [(some 1, -1), (some 2, 1)] := by decide
    rw [listForeachValue, hlength, hrun, Option.map_some, hcalls, List.drop_zero, hvisit]
    rfl
  · rw [h.listVisitsAll_iff goesAhead_removeFirst]
    decide

end LinkedList
end LibHL
