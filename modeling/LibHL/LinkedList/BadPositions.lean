import LibHL.LinkedList.Refinement

/-!
# Positions past the end

A move looks at its source position, and refuses one that is past the end.  A swap
looks at nothing: whatever it fetches is linked again without a test, and it reports
success whenever it gets to its end.
-/

namespace LibHL
namespace LinkedList

variable {V : Type}

/-! ## What is asked of the two calls -/

/-- A swap with a bad position reports it and leaves the contents as they are. -/
def SwapRefused (l : LinkedList V) (xs : List (Option V)) (pos1 pos2 : ℕ) : Prop :=
  l.listCount ≤ pos1 ∨ l.listCount ≤ pos2 →
    ∃ l' ps', l.listSwapValues pos1 pos2 = some (l', -1) ∧ Represents l' ps' xs

/-- A move from a bad position reports it and leaves the contents as they are. -/
def MoveRefused (l : LinkedList V) (xs : List (Option V)) (srcPos dstPos : ℕ) : Prop :=
  l.listCount ≤ srcPos →
    ∃ l' ps', l.listMoveValue srcPos dstPos = some (l', -1) ∧ Represents l' ps' xs

/-! ## The two calls -/

theorem exchangeEntries_rc {l l' : LinkedList V} {lo hi : ℕ} {rc : ℤ}
    (h : l.exchangeEntries lo hi = some (l', rc)) : rc = 0 := by
  simp only [exchangeEntries, Option.bind_eq_bind, Option.bind_eq_some_iff] at h
  obtain ⟨_, -, _, -, _, -, _, -, heq⟩ := h
  exact (Prod.mk.inj (Option.some.inj heq)).2.symm

theorem eq_of_listSwapValues {l l' : LinkedList V} {pos1 pos2 : ℕ}
    (h : l.listSwapValues pos1 pos2 = some (l', -1)) : pos1 = pos2 := by
  unfold listSwapValues swapEntries at h
  rcases lt_trichotomy pos1 pos2 with hlt | heq | hgt
  · rw [if_pos hlt] at h
    cases exchangeEntries_rc h
  · exact heq
  · rw [if_neg (Nat.not_lt_of_gt hgt), if_pos hgt] at h
    cases exchangeEntries_rc h

theorem listSwapValues_self (l : LinkedList V) (pos : ℕ) :
    l.listSwapValues pos pos = some (l, -1) := by
  unfold listSwapValues swapEntries
  rw [if_neg (Nat.lt_irrefl pos), if_neg (Nat.lt_irrefl pos)]

namespace Represents

variable {l : LinkedList V} {ps : List Addr} {xs : List (Option V)}

theorem moveRefused (h : Represents l ps xs) (srcPos dstPos : ℕ) :
    MoveRefused l xs srcPos dstPos := by
  intro hsrc
  rw [listCount, h.length] at hsrc
  exact ⟨l, ps, h.listMoveValue_of_ge srcPos dstPos hsrc, h⟩

/-- A swap refuses bad positions exactly if they are one position. -/
theorem swapRefused_iff (h : Represents l ps xs) (pos1 pos2 : ℕ) :
    SwapRefused l xs pos1 pos2 ↔
      pos1 = pos2 ∨ pos1 < l.listCount ∧ pos2 < l.listCount := by
  constructor
  · intro hrefused
    by_cases hbad : l.listCount ≤ pos1 ∨ l.listCount ≤ pos2
    · obtain ⟨l', ps', hrun, -⟩ := hrefused hbad
      exact Or.inl (eq_of_listSwapValues hrun)
    · obtain ⟨hpos1, hpos2⟩ := not_or.mp hbad
      exact Or.inr ⟨Nat.lt_of_not_le hpos1, Nat.lt_of_not_le hpos2⟩
  · rintro (rfl | ⟨hpos1, hpos2⟩)
    · exact fun _ => ⟨l, ps, listSwapValues_self l pos1, h⟩
    · rintro (hbad | hbad)
      · exact absurd hpos1 (Nat.not_lt_of_le hbad)
      · exact absurd hpos2 (Nat.not_lt_of_le hbad)

end Represents

/-! ## What a swap with a bad position does -/

section Missing

variable {l : LinkedList V} {ps : List Addr} {xs : List (Option V)}

theorem insertEntry_null_zero (h : Represents l ps xs) (hlen : ps.length < 2 ^ 31) :
    l.insertEntry none 0 = some (l, -1) := by
  have hpick : l.insertAfterPicked none 0 = some (l, -1) := by
    rw [insertAfterPicked, if_pos rfl, h.pickEntry_of_ge (by omega)]
    rfl
  simp [insertEntry, unshiftEntry, hpick]

/-- Linking nothing behind an entry reads a null pointer. -/
theorem insertAfterPicked_null (h : Represents l ps xs) (hlen : ps.length < 2 ^ 31)
    {pos : ℕ} (hpos : pos ≠ 0) (hle : pos ≤ ps.length) :
    l.insertAfterPicked none pos = none := by
  obtain ⟨p, -, hp, -⟩ := h.entry_of_lt (show pos - 1 < ps.length by omega)
  have hpick := h.pickEntry_of_lt hlen hp
  simp [insertAfterPicked, hpos, hpick]

theorem insertEntry_null (h : Represents l ps xs) (hlen : ps.length < 2 ^ 31) {pos : ℕ}
    (hpos : pos ≠ 0) (hlt : pos < 2 ^ 31) : l.insertEntry none pos = none := by
  by_cases hend : pos = ps.length
  · have hnull := insertAfterPicked_null h hlen hpos (le_of_eq hend)
    rw [hend] at hnull hpos
    simp [insertEntry, h.length, hend, hpos, pushEntry, hnull]
  by_cases hpast : ps.length < pos
  · obtain ⟨l₁, ps₁, hpad, h₁, -⟩ := Represents.padEntries_eq (pos - ps.length) h
    have hlen₁ : ps₁.length = pos := by
      rw [← h₁.length_eq, List.length_append, List.length_replicate, h.length_eq]
      omega
    have hnull := insertAfterPicked_null h₁ (by omega) hpos (le_of_eq hlen₁.symm)
    simp [insertEntry, hpos, h.length, hend, hpast, cUInt_of_lt hlen, hpad, pushEntry, hnull]
  · have hnull := insertAfterPicked_null h hlen hpos (by omega)
    simp [insertEntry, hpos, h.length, hend, hpast, hnull]

/-- An exchange with a position past the end reads a null pointer, except that with the
first position in a list of two or more it moves the second value and reports success. -/
theorem exchangeEntries_missing (h : Represents l ps xs) (hlen : ps.length < 2 ^ 31)
    {lo hi : ℕ} (hlt : lo < hi) (hhi : hi < 2 ^ 31) (hge : ps.length ≤ hi) :
    (lo = 0 ∧ 2 ≤ ps.length →
      ∃ l' ps', l.exchangeEntries lo hi = some (l', 0) ∧
        Represents l' ps' (insertPadded (xs.eraseIdx 1) hi (valueOrNull xs 1))) ∧
    (¬ (lo = 0 ∧ 2 ≤ ps.length) → l.exchangeEntries lo hi = none) := by
  have hfetch := h.fetchEntry_of_ge hge
  constructor
  · rintro ⟨rfl, htwo⟩
    have hzero := insertEntry_null_zero h hlen
    obtain ⟨l₁, a, v, hfetch₁, hu⟩ := h.fetchEntry_eq hlen (show 1 < ps.length by omega)
    have hlen₁ : (ps.eraseIdx 1).length < 2 ^ 31 := by
      rw [List.length_eraseIdx_of_lt (by omega)]
      omega
    obtain ⟨l₂, ps₂, hinsert, h₂⟩ :=
      hu.represents.insertEntry_eq hu.loose (hu.not_mem h) hlen₁ hi
    refine ⟨l₂, ps₂, ?_, ?_⟩
    · simp [exchangeEntries, hfetch, hzero, hfetch₁, hinsert]
    · simpa [valueOrNull, hu.value] using h₂
  · intro hnot
    by_cases hlo : lo = 0
    · subst lo
      have hfetch₁ := h.fetchEntry_of_ge (show ps.length ≤ 1 by omega)
      have hnull := insertEntry_null h hlen (Nat.ne_of_gt hlt) hhi
      simp [exchangeEntries, hfetch, insertEntry_null_zero h hlen, hfetch₁, hnull]
    · have hnull := insertEntry_null h hlen hlo (by omega)
      simp [exchangeEntries, hfetch, hnull]

end Missing

/-! ## Both calls together -/

/-- Swaps and moves refuse bad positions exactly if the swap has no bad position or names
one position twice; a move always refuses a bad source. -/
theorem badPositions_refused_iff (l : LinkedList V) (ps : List Addr) (xs : List (Option V))
    (h : Represents l ps xs) (pos1 pos2 : ℕ) :
    (SwapRefused l xs pos1 pos2 ∧ MoveRefused l xs pos1 pos2) ↔
      pos1 = pos2 ∨ pos1 < l.listCount ∧ pos2 < l.listCount := by
  rw [h.swapRefused_iff]
  exact and_iff_left (h.moveRefused pos1 pos2)

/-- The list after the given values were pushed to a new one. -/
def pushed (vals : List V) : Option (LinkedList V) :=
  vals.foldlM (fun l v => (l.listPushValue (some v)).map Prod.fst) listCreate

/-- A list of three: the position 5 is refused twice, and not together with another one. -/
theorem badPositions_refused_iff_three :
    ∃ l ps, Represents l ps [some 1, some 2, some 3] ∧
      (SwapRefused l [some 1, some 2, some 3] 5 5 ∧ MoveRefused l [some 1, some 2, some 3] 5 5) ∧
      ¬ (SwapRefused l [some 1, some 2, some 3] 0 5 ∧
        MoveRefused l [some 1, some 2, some 3] 0 5) := by
  obtain ⟨l, ps, h⟩ := Represents.exists_represents [some 1, some 2, some 3]
  have hcount : l.listCount = 3 := h.listCount_eq
  refine ⟨l, ps, h, (badPositions_refused_iff l ps _ h 5 5).mpr (Or.inl rfl), ?_⟩
  rw [badPositions_refused_iff l ps _ h 0 5, hcount]
  decide

/-- A swap of the first value with one past the end of a list of three succeeds, and the
second value is moved; with the second position it reads a null pointer. -/
theorem swap_past_the_end :
    ((pushed [1, 2, 3]).bind fun l => (l.listSwapValues 0 5).map Prod.snd) = some 0 ∧
      ((pushed [1, 2, 3]).bind fun l => (l.listSwapValues 1 5).map Prod.snd) = none ∧
      ∃ l ps, pushed [1, 2, 3] = some l ∧ Represents l ps [some 1, some 2, some 3] ∧
        ¬ SwapRefused l [some 1, some 2, some 3] 0 5 := by
  refine ⟨by decide, by decide +kernel, ?_⟩
  obtain ⟨l₁, ps₁, hrun₁, h₁⟩ := represents_listCreate.listPushValue_eq (some 1)
  obtain ⟨l₂, ps₂, hrun₂, h₂⟩ := h₁.listPushValue_eq (some 2)
  obtain ⟨l₃, ps₃, hrun₃, h₃⟩ := h₂.listPushValue_eq (some 3)
  refine ⟨l₃, ps₃, ?_, h₃, ?_⟩
  · simp [pushed, hrun₁, hrun₂, hrun₃]
  · have hiff := h₃.swapRefused_iff 0 5
    rw [h₃.listCount_eq] at hiff
    exact fun hrefused => absurd (hiff.mp hrefused) (by decide)

end LinkedList
end LibHL
