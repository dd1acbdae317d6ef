import LibHL.Support.Heap
import Mathlib.Data.List.Nodup
import Mathlib.Tactic.Common
import Mathlib.Order.Basic
import Mathlib.Data.Nat.Basic

/-!
# Doubly linked chains

A chain of cells is described by the list of its addresses and by the pair of
links found at each of them.  The two structural lemmas say what relinking the
neighbours of one position does: it inserts a cell into the chain or removes
one from it.  The end positions are not special cases, since a missing
neighbour is simply not relinked.
-/

namespace LibHL

/-- The two pointers of a doubly linked cell. -/
structure Links where
  prev : Option Addr
  next : Option Addr

/-- The address that stands before position `i`. -/
def before (ps : List Addr) (i : ℕ) : Option Addr :=
  if i = 0 then none else ps[i - 1]?

@[simp] theorem before_zero (ps : List Addr) : before ps 0 = none := rfl

@[simp] theorem before_succ (ps : List Addr) (i : ℕ) :
    before ps (i + 1) = ps[i]? := rfl

/-- The cells at `ps` are linked to each other in both directions, in order. -/
structure DLinked (lk : Addr → Option Links) (ps : List Addr) : Prop where
  nodup : ps.Nodup
  links : ∀ i a, ps[i]? = some a → lk a = some ⟨before ps i, ps[i + 1]?⟩

theorem DLinked.nil (lk : Addr → Option Links) : DLinked lk [] where
  nodup := List.nodup_nil
  links := by simp

theorem index_unique {ps : List Addr} (hnd : ps.Nodup) {i j : ℕ} {a : Addr}
    (hi : ps[i]? = some a) (hj : ps[j]? = some a) : i = j := by
  obtain ⟨hli, hai⟩ := List.getElem?_eq_some_iff.mp hi
  obtain ⟨hlj, haj⟩ := List.getElem?_eq_some_iff.mp hj
  exact (hnd.getElem_inj_iff).mp (hai.trans haj.symm)

theorem getElem?_eq_some_iff_eq {ps : List Addr} (hnd : ps.Nodup) {i : ℕ}
    {a : Addr} (hi : ps[i]? = some a) (k : ℕ) : ps[k]? = some a ↔ k = i := by
  constructor
  · intro hk
    exact index_unique hnd hk hi
  · rintro rfl
    exact hi

theorem before_eq_some_iff_eq {ps : List Addr} (hnd : ps.Nodup) {i : ℕ}
    {a : Addr} (hi : ps[i]? = some a) (k : ℕ) :
    before ps k = some a ↔ k = i + 1 := by
  cases k with
  | zero => simp
  | succ k =>
      rw [before_succ, getElem?_eq_some_iff_eq hnd hi]
      omega

/-- Chains only depend on the links of their own cells. -/
theorem DLinked.congr {lk lk' : Addr → Option Links} {ps : List Addr}
    (h : DLinked lk ps) (heq : ∀ a ∈ ps, lk' a = lk a) : DLinked lk' ps where
  nodup := h.nodup
  links := by
    intro i a ha
    rw [heq a (List.mem_of_getElem? ha)]
    exact h.links i a ha

/-- Linking a new cell between the two neighbours of position `k` inserts it
there. -/
theorem DLinked.insertIdx {lk lk' : Addr → Option Links} {ps : List Addr}
    {k : ℕ} {a : Addr} (h : DLinked lk ps) (hk : k ≤ ps.length)
    (ha : a ∉ ps) (hself : lk' a = some ⟨before ps k, ps[k]?⟩)
    (hother : ∀ b ∈ ps, lk' b = (lk b).map fun l =>
      { prev := if ps[k]? = some b then some a else l.prev
        next := if before ps k = some b then some a else l.next }) :
    DLinked lk' (ps.insertIdx k a) where
  nodup := by
    rw [(List.perm_insertIdx a ps hk).nodup_iff]
    exact List.nodup_cons.mpr ⟨ha, h.nodup⟩
  links := by
    intro i b hb
    rcases lt_trichotomy i k with hik | rfl | hki
    · rw [List.getElem?_insertIdx_of_lt hik] at hb
      rw [hother b (List.mem_of_getElem? hb), h.links i b hb]
      simp only [getElem?_eq_some_iff_eq h.nodup hb,
        before_eq_some_iff_eq h.nodup hb, Option.map_some]
      grind [before]
    · rw [List.getElem?_insertIdx_self, if_pos hk] at hb
      cases hb
      rw [hself]
      grind [before]
    · rw [List.getElem?_insertIdx_of_gt hki] at hb
      rw [hother b (List.mem_of_getElem? hb), h.links (i - 1) b hb]
      simp only [getElem?_eq_some_iff_eq h.nodup hb,
        before_eq_some_iff_eq h.nodup hb, Option.map_some]
      grind [before]

/-- Linking the two neighbours of position `k` to each other removes that
position from the chain. -/
theorem DLinked.eraseIdx {lk lk' : Addr → Option Links} {ps : List Addr}
    {k : ℕ} (h : DLinked lk ps)
    (hother : ∀ b ∈ ps, ps[k]? ≠ some b → lk' b = (lk b).map fun l =>
      { prev := if ps[k + 1]? = some b then before ps k else l.prev
        next := if before ps k = some b then ps[k + 1]? else l.next }) :
    DLinked lk' (ps.eraseIdx k) where
  nodup := h.nodup.eraseIdx k
  links := by
    intro i b hb
    rcases lt_or_ge i k with hik | hki
    · rw [List.getElem?_eraseIdx_of_lt hik] at hb
      have hne : ps[k]? ≠ some b := by
        rw [ne_eq, getElem?_eq_some_iff_eq h.nodup hb]
        omega
      rw [hother b (List.mem_of_getElem? hb) hne, h.links i b hb]
      simp only [getElem?_eq_some_iff_eq h.nodup hb,
        before_eq_some_iff_eq h.nodup hb, Option.map_some]
      grind [before]
    · rw [List.getElem?_eraseIdx_of_ge hki] at hb
      have hne : ps[k]? ≠ some b := by
        rw [ne_eq, getElem?_eq_some_iff_eq h.nodup hb]
        omega
      rw [hother b (List.mem_of_getElem? hb) hne, h.links (i + 1) b hb]
      simp only [getElem?_eq_some_iff_eq h.nodup hb,
        before_eq_some_iff_eq h.nodup hb, Option.map_some]
      grind [before]

end LibHL
