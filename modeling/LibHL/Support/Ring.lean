import LibHL.Support.Linked
import Mathlib.Data.Nat.ModEq

/-!
# Rings of cells

A ring is described by the list of its addresses, starting at a distinguished
first cell.  The link that closes the ring, from the last cell back to the
first, is marked.  The structural lemma says what it takes to move the first
position one cell on, while the old first cell, or another one in its place,
becomes the last.
-/

namespace LibHL

/-- The pointers of a ring cell; `closing` marks the link back to the first
cell. -/
structure RingLinks where
  next : Option Addr
  closing : Bool
  prev : Option Addr

/-- The address after position `i` of a ring. -/
def ringNext (ps : List Addr) (i : ℕ) : Option Addr :=
  if i + 1 = ps.length then ps[0]? else ps[i + 1]?

/-- The address before position `i` of a ring. -/
def ringPrev (ps : List Addr) (i : ℕ) : Option Addr :=
  if i = 0 then ps[ps.length - 1]? else ps[i - 1]?

/-- The cells at `ps` form a ring, in order, closed by a marked link. -/
structure Ringed (lk : Addr → Option RingLinks) (ps : List Addr) : Prop where
  nodup : ps.Nodup
  links : ∀ i a, ps[i]? = some a →
    lk a = some ⟨ringNext ps i, decide (i + 1 = ps.length), ringPrev ps i⟩

namespace Ringed

variable {lk lk' : Addr → Option RingLinks} {a c : Addr} {ps : List Addr}

theorem congr (h : Ringed lk ps) (hlk : ∀ a ∈ ps, lk' a = lk a) : Ringed lk' ps := by
  refine ⟨h.nodup, ?_⟩
  intro i a hi
  rw [hlk a (List.mem_of_getElem? hi)]
  exact h.links i a hi

theorem links_first (h : Ringed lk (a :: ps)) (hlen : 0 < ps.length) :
    lk a = some ⟨ps[0]?, false, ps[ps.length - 1]?⟩ := by
  have hlinks := h.links 0 a rfl
  have hne : ¬ 0 + 1 = (a :: ps).length := by
    rw [List.length_cons]
    omega
  rw [ringNext, if_neg hne, ringPrev, if_pos rfl, decide_eq_false hne] at hlinks
  rw [hlinks]
  have hlast : (a :: ps)[(a :: ps).length - 1]? = ps[ps.length - 1]? := by
    obtain ⟨n, hn⟩ := Nat.exists_eq_succ_of_ne_zero (Nat.ne_of_gt hlen)
    simp [hn]
  rw [hlast, List.getElem?_cons_succ]

/-- The links of a cell after the first and before the last. -/
theorem links_inner (h : Ringed lk (a :: ps)) {i : ℕ} (hi : i + 1 < ps.length) {y : Addr}
    (hy : ps[i]? = some y) :
    lk y = some ⟨ps[i + 1]?, false, (a :: ps)[i]?⟩ := by
  have hlinks := h.links (i + 1) y hy
  have hne : ¬ i + 1 + 1 = (a :: ps).length := by
    rw [List.length_cons]
    omega
  rw [ringNext, if_neg hne, ringPrev, if_neg (Nat.succ_ne_zero i),
    decide_eq_false hne] at hlinks
  exact hlinks

theorem links_last (h : Ringed lk (a :: ps)) {i : ℕ} (hi : i + 1 = ps.length) {y : Addr}
    (hy : ps[i]? = some y) :
    lk y = some ⟨some a, true, (a :: ps)[i]?⟩ := by
  have hlinks := h.links (i + 1) y hy
  have heq : i + 1 + 1 = (a :: ps).length := by
    rw [List.length_cons]
    omega
  rw [ringNext, if_pos heq, ringPrev, if_neg (Nat.succ_ne_zero i),
    decide_eq_true heq] at hlinks
  exact hlinks

/-- Start the ring at the second cell, with the cell `c` at its end. -/
theorem advance (h : Ringed lk (a :: ps)) {n : ℕ} (hn : ps.length = n + 2) (hc : c ∉ ps)
    (hnew : lk' c = some ⟨ps[0]?, true, ps[n + 1]?⟩)
    (hfirst : ∀ y, ps[0]? = some y → lk' y = some ⟨ps[1]?, false, some c⟩)
    (hlast : ∀ y, ps[n + 1]? = some y → lk' y = some ⟨some c, false, ps[n]?⟩)
    (hmid : ∀ i y, i < n → ps[i + 1]? = some y → lk' y = lk y) :
    Ringed lk' (ps ++ [c]) := by
  have hlen : (ps ++ [c]).length = n + 3 := by
    rw [List.length_append, hn]
    rfl
  have hin : ∀ i, i < n + 2 → (ps ++ [c])[i]? = ps[i]? := by
    intro i hi
    exact List.getElem?_append_left (by omega)
  have hend : (ps ++ [c])[n + 2]? = some c := by
    rw [List.getElem?_append_right (by omega), hn, Nat.sub_self]
    rfl
  refine ⟨?_, ?_⟩
  · have hnd := (List.nodup_cons.mp h.nodup).2
    rw [List.nodup_append]
    refine ⟨hnd, by simp, ?_⟩
    rintro x hx y hy rfl
    rw [List.mem_singleton.mp hy] at hx
    exact hc hx
  · intro i y hi
    have hlt : i < n + 3 := by
      rw [← hlen]
      exact (List.getElem?_eq_some_iff.mp hi).1
    rcases Nat.lt_or_ge i (n + 2) with hi' | hi'
    · rw [hin i hi'] at hi
      have hclose : ¬ i + 1 = (ps ++ [c]).length := by omega
      rw [ringNext, if_neg hclose, decide_eq_false hclose, ringPrev, hlen]
      rcases Nat.eq_zero_or_pos i with rfl | hpos
      · rw [if_pos rfl, hin _ (by omega)]
        exact (hfirst y hi).trans (by rw [← hend]; rfl)
      · obtain ⟨j, rfl⟩ : ∃ j, i = j + 1 := ⟨i - 1, by omega⟩
        rw [if_neg (Nat.succ_ne_zero j), Nat.add_sub_cancel, hin j (by omega)]
        rcases Nat.lt_or_ge j n with hj | hj
        · rw [hmid j y hj hi, h.links_inner (by omega) hi, hin (j + 1 + 1) (by omega)]
          rfl
        · obtain rfl : j = n := by omega
          rw [hlast y hi, hend]
    · have hin2 : i = n + 2 := by omega
      subst hin2
      rw [hend] at hi
      cases hi
      rw [hnew, ringNext, hlen, if_pos rfl, ringPrev, if_neg (by omega), hin 0 (by omega),
        decide_eq_true rfl]
      rw [show n + 2 - 1 = n + 1 from rfl, hin (n + 1) (by omega)]

end Ringed

/-! ## Cells numbered round and round -/

/-- `n` cells, numbered round and round. -/
structure Slots (n : ℕ) where
  slot : ℕ → Addr
  slot_eq_iff : ∀ i j, slot i = slot j ↔ i % n = j % n

namespace Slots

variable {n : ℕ} {i j : ℕ}

/-- The cells of a list. -/
def ofList (l : List Addr) (hl : l.Nodup) (hn : l.length = n) (hpos : 0 < n) : Slots n where
  slot := fun i => l.get ⟨i % n, (Nat.mod_lt i hpos).trans_eq hn.symm⟩
  slot_eq_iff := by
    intro i j
    rw [hl.get_inj_iff, Fin.mk.injEq]

theorem getElem?_ofList {l : List Addr} (hl : l.Nodup) (hn : l.length = n) (hpos : 0 < n)
    (hi : i < n) : l[i]? = some ((ofList l hl hn hpos).slot i) := by
  have hlt : i < l.length := hn ▸ hi
  have hmod : i % n = i := Nat.mod_eq_of_lt hi
  rw [List.getElem?_eq_getElem hlt]
  simp only [ofList, hmod, List.get_eq_getElem]

theorem slot_add (c : Slots n) (i : ℕ) : c.slot (i + n) = c.slot i := by
  rw [c.slot_eq_iff, Nat.add_mod_right]

theorem eq_of_near (c : Slots n) (h : c.slot i = c.slot j) (hij : i ≤ j) (hj : j < i + n) :
    i = j := by
  have hdvd : n ∣ j - i := (Nat.modEq_iff_dvd' hij).mp ((c.slot_eq_iff i j).mp h)
  have hzero := Nat.eq_zero_of_dvd_of_lt hdvd (by omega)
  omega

theorem ne_of_near (c : Slots n) (hij : i < j) (hj : j < i + n) : c.slot i ≠ c.slot j := by
  intro h
  have heq := c.eq_of_near h hij.le hj
  omega

end Slots
end LibHL
