import LibHL.Support.Circular

/-!
# Blocks of allocated memory

A block is a list of cells, of which some are not initialised yet; the null
pointer is `none`.  Copies out of and into a block have no result outside its
bounds, and a copy of no cells touches nothing.
-/

namespace LibHL

/-- A block, or the null pointer. -/
abbrev Storage (α : Type*) := Option (List (Option α))

namespace Storage

open Circular

variable {α : Type*} {a b c xs : List (Option α)} {n : ℕ}

/-- The `n` cells from `off` on. -/
def peek (m : Storage α) (off n : ℕ) : Option (List (Option α)) :=
  if n = 0 then some []
  else m.bind fun cells =>
    if off + n ≤ cells.length then some ((cells.drop off).take n) else none

/-- Replace the cells from `off` on. -/
def poke (m : Storage α) (off : ℕ) (xs : List (Option α)) : Option (Storage α) :=
  if xs.length = 0 then some m
  else m.bind fun cells =>
    if off + xs.length ≤ cells.length then some (some (overwrite cells off xs)) else none

/-- The value of an initialised cell. -/
def readCell (m : Storage α) (off : ℕ) : Option α := (m.bind fun cells => cells[off]?).join

/-- A block of `n` cells that keeps the old ones. -/
def resize (m : Storage α) (n : ℕ) : Storage α :=
  some ((m.getD []).take n ++ List.replicate (n - (m.getD []).length) none)

theorem peek_mid (h : n = b.length) : peek (some (a ++ b ++ c)) a.length n = some b := by
  subst h
  by_cases hb : b.length = 0
  · rw [peek, if_pos hb, List.eq_nil_of_length_eq_zero hb]
  · have hin : a.length + b.length ≤ (a ++ b ++ c).length := by
      rw [List.length_append, List.length_append]
      omega
    rw [peek, if_neg hb, Option.bind_some, if_pos hin, List.append_assoc, List.drop_left,
      List.take_left]

theorem poke_mid (h : xs.length ≤ b.length) :
    poke (some (a ++ b)) a.length xs = some (some (a ++ xs ++ b.drop xs.length)) := by
  by_cases hx : xs.length = 0
  · rw [poke, if_pos hx, List.eq_nil_of_length_eq_zero hx, List.append_nil, List.length_nil,
      List.drop_zero]
  · have hin : a.length + xs.length ≤ (a ++ b).length := by
      rw [List.length_append]
      omega
    rw [poke, if_neg hx, Option.bind_some, if_pos hin, overwrite, List.take_left,
      ← List.drop_drop, List.drop_left]

theorem readCell_mid {x : α} : readCell (some (a ++ some x :: b)) a.length = some x := by
  rw [readCell, Option.bind_some, List.getElem?_append_right le_rfl, Nat.sub_self]
  rfl

theorem resize_of_le (h : a.length ≤ n) :
    resize (some a) n = some (a ++ List.replicate (n - a.length) none) := by
  rw [resize, Option.getD_some, List.take_of_length_le h]

theorem resize_of_ge (h : n ≤ a.length) : resize (some a) n = some (a.take n) := by
  rw [resize, Option.getD_some, Nat.sub_eq_zero_of_le h, List.replicate_zero, List.append_nil]

theorem resize_none (n : ℕ) : resize (none : Storage α) n = some (List.replicate n none) := by
  rw [resize, Option.getD_none, List.take_nil, List.nil_append, List.length_nil, Nat.sub_zero]

/-! ## Cells by their offsets -/

theorem peek_of_le {off : ℕ} (h : off + n ≤ a.length) :
    peek (some a) off n = some ((a.drop off).take n) := by
  by_cases hn : n = 0
  · rw [peek, if_pos hn, hn, List.take_zero]
  · rw [peek, if_neg hn, Option.bind_some, if_pos h]

theorem peek_eq_some {m : Storage α} {off : ℕ} (h : peek m off n = some xs) :
    xs.length = n ∧ (n ≠ 0 → ∃ cells, m = some cells ∧ off + n ≤ cells.length) := by
  rw [peek] at h
  by_cases hn : n = 0
  · rw [if_pos hn] at h
    cases h
    exact ⟨hn.symm, fun hne => absurd hn hne⟩
  rw [if_neg hn] at h
  obtain ⟨cells, hm, h⟩ := Option.bind_eq_some_iff.mp h
  by_cases hin : off + n ≤ cells.length
  · rw [if_pos hin] at h
    cases h
    refine ⟨?_, fun _ => ⟨cells, hm, hin⟩⟩
    rw [List.length_take, List.length_drop]
    omega
  · rw [if_neg hin] at h
    cases h

theorem poke_of_le {off : ℕ} (h : off + xs.length ≤ a.length) :
    poke (some a) off xs = some (some (overwrite a off xs)) := by
  by_cases hx : xs.length = 0
  · rw [poke, if_pos hx, List.eq_nil_of_length_eq_zero hx, overwrite_nil]
  · rw [poke, if_neg hx, Option.bind_some, if_pos h]

theorem poke_eq_some {m m' : Storage α} {off : ℕ} (hx : xs ≠ []) (h : poke m off xs = some m') :
    ∃ cells, m = some cells ∧ off + xs.length ≤ cells.length ∧
      m' = some (overwrite cells off xs) := by
  have hlen : ¬ xs.length = 0 := fun hzero => hx (List.eq_nil_of_length_eq_zero hzero)
  rw [poke, if_neg hlen] at h
  obtain ⟨cells, hm, h⟩ := Option.bind_eq_some_iff.mp h
  by_cases hin : off + xs.length ≤ cells.length
  · rw [if_pos hin] at h
    exact ⟨cells, hm, hin, (Option.some.inj h).symm⟩
  · rw [if_neg hin] at h
    cases h

theorem poke_eq_none {off : ℕ} (hx : xs ≠ []) (h : a.length < off + xs.length) :
    poke (some a) off xs = none := by
  cases hpoke : poke (some a) off xs with
  | none => rfl
  | some m =>
      obtain ⟨cells, hcells, hin, -⟩ := poke_eq_some hx hpoke
      obtain rfl := Option.some.inj hcells
      omega

theorem length_poke {m m' : Storage α} {off : ℕ} (h : poke m off xs = some m') :
    (m'.getD []).length = (m.getD []).length := by
  by_cases hx : xs = []
  · rw [poke, if_pos (List.length_eq_zero_iff.mpr hx)] at h
    rw [Option.some.inj h]
  · obtain ⟨cells, rfl, hin, rfl⟩ := poke_eq_some hx h
    exact length_overwrite hin

theorem le_of_poke {m m' : Storage α} {off : ℕ} (hx : xs ≠ []) (h : poke m off xs = some m') :
    off + xs.length ≤ (m.getD []).length := by
  obtain ⟨cells, rfl, hin, -⟩ := poke_eq_some hx h
  exact hin

theorem getElem?_resize {k : ℕ} (hk : k < n) (hin : k < a.length) :
    ((resize (some a) n).getD [])[k]? = a[k]? := by
  rw [resize, Option.getD_some, Option.getD_some, List.getElem?_append_left,
    List.getElem?_take_of_lt hk]
  rw [List.length_take]
  omega

theorem getElem?_of_resize {m : Storage α} {k : ℕ} {x : α}
    (h : ((resize m n).getD [])[k]? = some (some x)) : (m.getD [])[k]? = some (some x) := by
  rw [resize, Option.getD_some, List.getElem?_append] at h
  split at h
  · rename_i hk
    rw [List.length_take] at hk
    rwa [List.getElem?_take_of_lt (by omega)] at h
  · rw [List.getElem?_replicate] at h
    split at h
    · cases h
    · cases h

theorem length_resize (m : Storage α) (n : ℕ) : ((resize m n).getD []).length = n := by
  rw [resize, Option.getD_some, List.length_append, List.length_take, List.length_replicate]
  omega

theorem take_resize {k : ℕ} (hk : k ≤ n) (hin : k ≤ a.length) :
    ((resize (some a) n).getD []).take k = a.take k := by
  rw [resize, Option.getD_some, Option.getD_some, List.take_append_of_le_length, List.take_take,
    Nat.min_eq_left hk]
  rw [List.length_take]
  omega

end Storage
end LibHL
