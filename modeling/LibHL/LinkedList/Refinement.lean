import LibHL.LinkedList.Operations
import LibHL.Support.Run

/-!
# The value API refines a plain list

The reference component is a plain list of nullable values.  Every run of the
value API from a new list returns what the reference returns, and leaves a
well-linked chain with a coherent cursor.
-/

namespace LibHL
namespace LinkedList

variable {V : Type}

/-! ## The reference list -/

/-- Calls of the value API. -/
inductive ListOp (V : Type) where
  | push (val : Option V)
  | pop
  | unshift (val : Option V)
  | shift
  | insert (val : Option V) (pos : ℕ)
  | pick (pos : ℕ)
  | fetch (pos : ℕ)
  | set (pos : ℕ) (newval : Option V)
  | subst (pos : ℕ) (newval : Option V)
  | move (srcPos dstPos : ℕ)
  | swap (pos1 pos2 : ℕ)
  | count

/-- What a call returns: a value pointer, a status code or a count. -/
inductive ListOut (V : Type) where
  | value (v : Option V)
  | code (rc : ℤ)
  | count (n : ℕ)
  deriving DecidableEq

/-- The value at a position, null past the end. -/
def valueOrNull (xs : List (Option V)) (pos : ℕ) : Option V := (xs[pos]?).join

/-- The obvious reference operations on a plain list. -/
def listRef (xs : List (Option V)) : ListOp V → List (Option V) × ListOut V
  | .push val => (xs ++ [val], .code 0)
  | .pop => (xs.dropLast, .value xs.getLast?.join)
  | .unshift val => (val :: xs, .code 0)
  | .shift => (xs.tail, .value xs.head?.join)
  | .insert val pos => (insertPadded xs pos val, .code 0)
  | .pick pos => (xs, .value (valueOrNull xs pos))
  | .fetch pos => (xs.eraseIdx pos, .value (valueOrNull xs pos))
  | .set pos newval =>
      (if pos < xs.length then xs.set pos newval else insertPadded xs pos newval,
        .value (valueOrNull xs pos))
  | .subst pos newval => (xs.set pos newval, .value (valueOrNull xs pos))
  | .move srcPos dstPos =>
      if srcPos < xs.length then
        (insertPadded (xs.eraseIdx srcPos) dstPos (valueOrNull xs srcPos), .code 0)
      else
        (xs, .code (-1))
  | .swap pos1 pos2 =>
      ((xs.set pos1 (valueOrNull xs pos2)).set pos2 (valueOrNull xs pos1), .code 0)
  | .count => (xs, .count xs.length)

/-- One call of the value API. -/
def listStep (l : LinkedList V) : ListOp V → Option (LinkedList V × ListOut V)
  | .push val => (l.listPushValue val).map fun r => (r.1, .code r.2)
  | .pop => l.listPopValue.map fun r => (r.1, .value r.2)
  | .unshift val => (l.listUnshiftValue val).map fun r => (r.1, .code r.2)
  | .shift => l.listShiftValue.map fun r => (r.1, .value r.2)
  | .insert val pos => (l.listInsertValue val pos).map fun r => (r.1, .code r.2)
  | .pick pos => (l.listPickValue pos).map fun r => (r.1, .value r.2)
  | .fetch pos => (l.listFetchValue pos).map fun r => (r.1, .value r.2)
  | .set pos newval => (l.listSetValue pos newval).map fun r => (r.1, .value r.2)
  | .subst pos newval =>
      (l.listSubstValue pos newval).map fun r => (r.1, .value r.2)
  | .move srcPos dstPos =>
      (l.listMoveValue srcPos dstPos).map fun r => (r.1, .code r.2)
  | .swap pos1 pos2 => (l.listSwapValues pos1 pos2).map fun r => (r.1, .code r.2)
  | .count => some (l, .count l.listCount)

/-- The positions a call mentions. -/
def ListOp.positions : ListOp V → List ℕ
  | .insert _ pos | .pick pos | .fetch pos | .set pos _ | .subst pos _ => [pos]
  | .move srcPos dstPos => [srcPos, dstPos]
  | .swap pos1 pos2 => [pos1, pos2]
  | _ => []

/-- The two positions of a swap. -/
def ListOp.swapped : ListOp V → Option (ℕ × ℕ)
  | .swap pos1 pos2 => some (pos1, pos2)
  | _ => none

/-- The calls considered: lengths and positions fit a 32-bit `int`, and a swap
names two different positions of the list. -/
def listCallOk (l : LinkedList V) (op : ListOp V) : Prop :=
  l.listCount < 2 ^ 31 ∧ (∀ pos ∈ op.positions, pos < 2 ^ 31) ∧
    ∀ q ∈ op.swapped, q.1 ≠ q.2 ∧ q.1 < l.listCount ∧ q.2 < l.listCount

instance (l : LinkedList V) (op : ListOp V) : Decidable (listCallOk l op) :=
  inferInstanceAs (Decidable (_ ∧ _ ∧ _))

/-! ## The calls one by one -/

namespace Represents

variable {l : LinkedList V} {ps : List Addr} {xs : List (Option V)}

/-- Taking the value of an unlinked entry and destroying the entry. -/
theorem takeValue_eq (h : Represents l ps xs) {l' : LinkedList V} {k : ℕ}
    {a : Addr} {v : Option V} (hu : Unlinked l ps xs k l' a v) :
    ∃ l'', takeValue (l', some a) = some (l'', valueOrNull xs k) ∧
      Represents l'' (ps.eraseIdx k) (xs.eraseIdx k) := by
  obtain ⟨l'', hdestroy, hrep⟩ :=
    hu.represents.destroyEntry_eq hu.loose (hu.not_mem h)
  refine ⟨l'', ?_, hrep⟩
  have hcell : l'.entries a = _ := hu.loose
  simp [takeValue, hcell, hdestroy, valueOrNull, hu.value]

theorem listFetchValue_eq (h : Represents l ps xs) (hlen : ps.length < 2 ^ 31)
    (pos : ℕ) :
    ∃ l' ps', l.listFetchValue pos = some (l', valueOrNull xs pos) ∧
      Represents l' ps' (xs.eraseIdx pos) := by
  by_cases hpos : pos < ps.length
  · obtain ⟨l₁, a, v, hfetch, hu⟩ := h.fetchEntry_eq hlen hpos
    obtain ⟨l₂, htake, hrep⟩ := h.takeValue_eq hu
    exact ⟨l₂, _, by simp [listFetchValue, hfetch, htake], hrep⟩
  · have hge : ps.length ≤ pos := Nat.le_of_not_lt hpos
    have hxs : xs.length ≤ pos := by rwa [h.length_eq]
    refine ⟨l, ps, ?_, ?_⟩
    · simp [listFetchValue, h.fetchEntry_of_ge hge, takeValue, valueOrNull,
        List.getElem?_eq_none hxs]
    · rwa [List.eraseIdx_of_length_le hxs]

theorem listPopValue_eq (h : Represents l ps xs) :
    ∃ l' ps', l.listPopValue = some (l', xs.getLast?.join) ∧
      Represents l' ps' xs.dropLast := by
  by_cases hne : ps.length = 0
  · have hps : ps = [] := List.eq_nil_of_length_eq_zero hne
    have hxs : xs = [] := List.eq_nil_of_length_eq_zero (h.length_eq.trans hne)
    subst hps hxs
    exact ⟨l, [], by simp [listPopValue, h.popEntry_of_empty, takeValue], h⟩
  · obtain ⟨l₁, a, v, hpop, hu⟩ := h.popEntry_eq hne
    obtain ⟨l₂, htake, hrep⟩ := h.takeValue_eq hu
    have hlast : xs.getLast?.join = valueOrNull xs (ps.length - 1) := by
      rw [valueOrNull, ← h.length_eq, List.getLast?_eq_getElem?]
    have hdrop : xs.eraseIdx (ps.length - 1) = xs.dropLast := by
      rw [← h.length_eq, List.eraseIdx_length_sub_one]
    refine ⟨l₂, ps.eraseIdx (ps.length - 1), ?_, ?_⟩
    · simp [listPopValue, hpop, htake, hlast]
    · rwa [hdrop] at hrep

theorem listShiftValue_eq (h : Represents l ps xs) :
    ∃ l' ps', l.listShiftValue = some (l', xs.head?.join) ∧
      Represents l' ps' xs.tail := by
  by_cases hne : ps.length = 0
  · have hps : ps = [] := List.eq_nil_of_length_eq_zero hne
    have hxs : xs = [] := List.eq_nil_of_length_eq_zero (h.length_eq.trans hne)
    subst hps hxs
    exact ⟨l, [], by simp [listShiftValue, h.shiftEntry_of_empty, takeValue], h⟩
  · obtain ⟨l₁, a, v, hshift, hu⟩ := h.shiftEntry_eq hne
    obtain ⟨l₂, htake, hrep⟩ := h.takeValue_eq hu
    refine ⟨l₂, ps.eraseIdx 0, ?_, ?_⟩
    · simp [listShiftValue, hshift, htake, valueOrNull, List.head?_eq_getElem?]
    · have htail : xs.eraseIdx 0 = xs.tail := List.eraseIdx_zero
      rwa [htail] at hrep

/-- A created entry with its value set, ready to be linked. -/
theorem linkValue_eq (h : Represents l ps xs) (val : Option V)
    {link : LinkedList V → Option Addr → Option (LinkedList V × ℤ)}
    {ys : List (Option V)}
    (hlink : ∀ {l₁ : LinkedList V} {a : Addr}, Represents l₁ ps xs →
      Loose l₁.entries a val → a ∉ ps →
      ∃ l₂ ps₂, link l₁ (some a) = some (l₂, 0) ∧ Represents l₂ ps₂ ys) :
    ∃ l' ps', l.linkValue val link = some (l', 0) ∧ Represents l' ps' ys := by
  obtain ⟨hrep, hloose, hnew, -⟩ := h.createEntry_eq
  obtain ⟨es, hset, hrep₁, hloose₁⟩ := hrep.setEntryValue_of_loose hloose hnew val
  obtain ⟨l₂, ps₂, hrun, hrep₂⟩ := hlink hrep₁ hloose₁ hnew
  refine ⟨l₂, ps₂, ?_, hrep₂⟩
  simp [linkValue, hset, hrun]

theorem listPushValue_eq (h : Represents l ps xs) (val : Option V) :
    ∃ l' ps', l.listPushValue val = some (l', 0) ∧
      Represents l' ps' (xs ++ [val]) := by
  apply h.linkValue_eq val
  intro l₁ a hrep hloose hnew
  obtain ⟨l₂, hrun, hrep₂, -⟩ := hrep.pushEntry_eq hloose hnew
  rw [← h.length_eq, List.insertIdx_length_self] at hrep₂
  exact ⟨l₂, _, hrun, hrep₂⟩

/-- Pushing values one after the other appends them. -/
theorem exists_appended (h : Represents l ps xs) (ys : List (Option V)) :
    ∃ (l' : LinkedList V) (ps' : List Addr), Represents l' ps' (xs ++ ys) := by
  induction ys generalizing l ps xs with
  | nil => exact ⟨l, ps, by rwa [List.append_nil]⟩
  | cons y ys ih =>
      obtain ⟨l', ps', -, h'⟩ := h.listPushValue_eq y
      obtain ⟨l'', ps'', h''⟩ := ih h'
      exact ⟨l'', ps'', by rwa [List.append_assoc] at h''⟩

theorem exists_represents (xs : List (Option V)) :
    ∃ (l : LinkedList V) (ps : List Addr), Represents l ps xs :=
  represents_listCreate.exists_appended xs

theorem listUnshiftValue_eq (h : Represents l ps xs) (val : Option V) :
    ∃ l' ps', l.listUnshiftValue val = some (l', 0) ∧
      Represents l' ps' (val :: xs) := by
  apply h.linkValue_eq val
  intro l₁ a hrep hloose hnew
  obtain ⟨l₂, hrun, hrep₂, -⟩ := hrep.unshiftEntry_eq hloose hnew
  exact ⟨l₂, _, hrun, hrep₂⟩

theorem listInsertValue_eq (h : Represents l ps xs) (hlen : ps.length < 2 ^ 31)
    (val : Option V) (pos : ℕ) :
    ∃ l' ps', l.listInsertValue val pos = some (l', 0) ∧
      Represents l' ps' (insertPadded xs pos val) := by
  apply h.linkValue_eq val
  intro l₁ a hrep hloose hnew
  exact hrep.insertEntry_eq hloose hnew hlen pos

theorem listPickValue_eq (h : Represents l ps xs) (hlen : ps.length < 2 ^ 31)
    (pos : ℕ) :
    ∃ l', l.listPickValue pos = some (l', valueOrNull xs pos) ∧
      Represents l' ps xs := by
  by_cases hpos : pos < ps.length
  · obtain ⟨a, e, ha, he, -, -, hval⟩ := h.entry_of_lt hpos
    refine ⟨_, ?_, h.set_cursor ha⟩
    simp [listPickValue, h.pickEntry_of_lt hlen ha, he, valueOrNull, hval]
  · have hge : ps.length ≤ pos := Nat.le_of_not_lt hpos
    have hxs : xs.length ≤ pos := by rwa [h.length_eq]
    refine ⟨l, ?_, h⟩
    simp [listPickValue, h.pickEntry_of_ge hge, valueOrNull,
      List.getElem?_eq_none hxs]

theorem setEntryValue_eq (h : Represents l ps xs) {pos : ℕ} {a : Addr}
    (ha : ps[pos]? = some a) (val : Option V) :
    ∃ l', l.setEntryValue a val = some l' ∧
      Represents l' ps (xs.set pos val) := by
  obtain ⟨e, he, -, -, -⟩ := h.entry_at ha
  refine ⟨{ l with entries := l.entries.put a { e with value := val } }, ?_, ?_⟩
  · simp [setEntryValue, Heap.modify, he]
  · refine ⟨?_, ?_, h.head, h.tail, h.length, h.cursor⟩
    · apply h.linked.congr
      intro b _
      by_cases hba : b = a
      · simp [links, Heap.put_apply, hba, he]
      · simp [links, Heap.put_apply, hba]
    · apply List.ext_getElem?
      intro i
      have hold := congrArg (fun vs => vs[i]?) h.values
      simp only [List.getElem?_map] at hold ⊢
      by_cases hip : i = pos
      · subst i
        have hlt : pos < xs.length := by
          rw [h.length_eq]
          exact (List.getElem?_eq_some_iff.mp ha).1
        simp [ha, valueAt, Heap.put_apply, he, hlt]
      · rw [List.getElem?_set_ne (Ne.symm hip), ← hold]
        cases hb : ps[i]? with
        | none => rfl
        | some b =>
            have hba : b ≠ a := by
              intro heq
              subst heq
              exact hip (index_unique h.linked.nodup hb ha)
            simp [valueAt, Heap.put_apply, hba]

theorem listSubstValue_eq (h : Represents l ps xs) (hlen : ps.length < 2 ^ 31)
    (pos : ℕ) (newval : Option V) :
    ∃ l', l.listSubstValue pos newval = some (l', valueOrNull xs pos) ∧
      Represents l' ps (xs.set pos newval) := by
  by_cases hpos : pos < ps.length
  · obtain ⟨a, e, ha, he, -, -, hval⟩ := h.entry_of_lt hpos
    obtain ⟨l', hset, hrep⟩ := (h.set_cursor ha).setEntryValue_eq ha newval
    refine ⟨l', ?_, hrep⟩
    simp [listSubstValue, h.pickEntry_of_lt hlen ha, he, hset, valueOrNull, hval]
  · have hge : ps.length ≤ pos := Nat.le_of_not_lt hpos
    have hxs : xs.length ≤ pos := by rwa [h.length_eq]
    refine ⟨l, ?_, ?_⟩
    · simp [listSubstValue, h.pickEntry_of_ge hge, valueOrNull,
        List.getElem?_eq_none hxs]
    · rwa [List.set_eq_of_length_le hxs]

theorem listSetValue_eq (h : Represents l ps xs) (hlen : ps.length < 2 ^ 31)
    (pos : ℕ) (newval : Option V) :
    ∃ l' ps', l.listSetValue pos newval = some (l', valueOrNull xs pos) ∧
      Represents l' ps'
        (if pos < xs.length then xs.set pos newval
          else insertPadded xs pos newval) := by
  by_cases hpos : pos < ps.length
  · obtain ⟨a, e, ha, he, -, -, hval⟩ := h.entry_of_lt hpos
    obtain ⟨l', hset, hrep⟩ := (h.set_cursor ha).setEntryValue_eq ha newval
    refine ⟨l', ps, ?_, ?_⟩
    · simp [listSetValue, h.pickEntry_of_lt hlen ha, he, hset, valueOrNull, hval]
    · rwa [if_pos (by rwa [h.length_eq])]
  · have hge : ps.length ≤ pos := Nat.le_of_not_lt hpos
    have hxs : xs.length ≤ pos := by rwa [h.length_eq]
    obtain ⟨l', ps', hinsert, hrep⟩ := h.listInsertValue_eq hlen newval pos
    refine ⟨l', ps', ?_, ?_⟩
    · simp [listSetValue, h.pickEntry_of_ge hge, hinsert, valueOrNull,
        List.getElem?_eq_none hxs]
    · rwa [if_neg (Nat.not_lt.mpr hxs)]

theorem listMoveValue_eq (h : Represents l ps xs) (hlen : ps.length < 2 ^ 31)
    {srcPos : ℕ} (hsrc : srcPos < ps.length) (dstPos : ℕ) :
    ∃ l' ps', l.listMoveValue srcPos dstPos = some (l', 0) ∧
      Represents l' ps'
        (insertPadded (xs.eraseIdx srcPos) dstPos (valueOrNull xs srcPos)) := by
  obtain ⟨l₁, a, v, hfetch, hu⟩ := h.fetchEntry_eq hlen hsrc
  have hlen₁ : (ps.eraseIdx srcPos).length < 2 ^ 31 := by
    rw [List.length_eraseIdx_of_lt hsrc]
    omega
  obtain ⟨l₂, ps₂, hinsert, hrep₂⟩ :=
    hu.represents.insertEntry_eq hu.loose (hu.not_mem h) hlen₁ dstPos
  refine ⟨l₂, ps₂, ?_, ?_⟩
  · simp [listMoveValue, moveEntry, hfetch, hinsert]
  · simpa [valueOrNull, hu.value] using hrep₂

theorem listMoveValue_of_ge (h : Represents l ps xs) (srcPos dstPos : ℕ)
    (hsrc : ps.length ≤ srcPos) :
    l.listMoveValue srcPos dstPos = some (l, -1) := by
  simp [listMoveValue, moveEntry, h.fetchEntry_of_ge hsrc]

/-- Taking the value at `hi` down to `lo` and the displaced one up to `hi`
exchanges the two values. -/
theorem exchanged_values {lo hi : ℕ} {x y : Option V} (hlt : lo < hi)
    (hhi : xs[hi]? = some y) :
    (((xs.eraseIdx hi).insertIdx lo y).eraseIdx (lo + 1)).insertIdx hi x =
      (xs.set lo y).set hi x := by
  have hlen : hi < xs.length := (List.getElem?_eq_some_iff.mp hhi).1
  apply List.ext_getElem?
  intro i
  grind

/-- One exchange of `swap_entries`, for positions in ascending order. -/
theorem exchangeEntries_eq (h : Represents l ps xs) (hlen : ps.length < 2 ^ 31)
    {lo hi : ℕ} (hlt : lo < hi) (hhi : hi < ps.length) :
    ∃ l' ps', l.exchangeEntries lo hi = some (l', 0) ∧
      Represents l' ps'
        ((xs.set lo (valueOrNull xs hi)).set hi (valueOrNull xs lo)) := by
  obtain ⟨l₁, a₂, y, hfetch₁, hu₁⟩ := h.fetchEntry_eq hlen hhi
  have hlen₁ : (ps.eraseIdx hi).length = ps.length - 1 :=
    List.length_eraseIdx_of_lt hhi
  obtain ⟨l₂, ps₂, hinsert₂, hrep₂⟩ :=
    hu₁.represents.insertEntry_eq hu₁.loose (hu₁.not_mem h) (by omega) lo
  have hxs₁ : (xs.eraseIdx hi).length = ps.length - 1 := by
    rw [hu₁.represents.length_eq, hlen₁]
  rw [insertPadded_of_le (by omega)] at hrep₂
  have hps₂ : ps₂.length = ps.length := by
    rw [← hrep₂.length_eq, List.length_insertIdx_of_le_length (by omega), hxs₁]
    omega
  obtain ⟨l₃, a₁, x, hfetch₃, hu₃⟩ :=
    hrep₂.fetchEntry_eq (by omega) (show lo + 1 < ps₂.length by omega)
  have hlen₃ : (ps₂.eraseIdx (lo + 1)).length = ps₂.length - 1 :=
    List.length_eraseIdx_of_lt (by omega)
  obtain ⟨l₄, ps₄, hinsert₄, hrep₄⟩ :=
    hu₃.represents.insertEntry_eq hu₃.loose (hu₃.not_mem hrep₂) (by omega) hi
  rw [insertPadded_of_le (by rw [hu₃.represents.length_eq]; omega)] at hrep₄
  have hx : xs[lo]? = some x := by
    have hval := hu₃.value
    rw [List.getElem?_insertIdx_of_gt (by omega), Nat.add_sub_cancel,
      List.getElem?_eraseIdx_of_lt hlt] at hval
    exact hval
  refine ⟨l₄, ps₄, ?_, ?_⟩
  · simp [exchangeEntries, hfetch₁, hinsert₂, hfetch₃, hinsert₄]
  · rw [exchanged_values hlt hu₁.value] at hrep₄
    simpa [valueOrNull, hx, hu₁.value] using hrep₄

theorem listSwapValues_eq (h : Represents l ps xs) (hlen : ps.length < 2 ^ 31)
    {pos1 pos2 : ℕ} (hne : pos1 ≠ pos2) (hpos1 : pos1 < ps.length)
    (hpos2 : pos2 < ps.length) :
    ∃ l' ps', l.listSwapValues pos1 pos2 = some (l', 0) ∧
      Represents l' ps'
        ((xs.set pos1 (valueOrNull xs pos2)).set pos2 (valueOrNull xs pos1)) := by
  unfold listSwapValues swapEntries
  rcases Nat.lt_or_gt_of_ne hne with hlt | hgt
  · rw [if_pos hlt]
    exact h.exchangeEntries_eq hlen hlt hpos2
  · rw [if_neg (by omega), if_pos hgt, List.set_comm _ _ hne]
    exact h.exchangeEntries_eq hlen hgt hpos1

end Represents

/-! ## Whole runs -/

/-- Every admitted call returns what the reference returns and keeps the
representation. -/
theorem listStep_refines (l : LinkedList V) (xs : List (Option V))
    (op : ListOp V) (h : ∃ ps, Represents l ps xs) (hok : listCallOk l op) :
    ∃ l', listStep l op = some (l', (listRef xs op).2) ∧
      ∃ ps, Represents l' ps (listRef xs op).1 := by
  obtain ⟨ps, h⟩ := h
  have hlen : ps.length < 2 ^ 31 := by
    rw [← h.length]
    exact hok.1
  cases op with
  | push val =>
      obtain ⟨l', ps', hrun, hrep⟩ := h.listPushValue_eq val
      exact ⟨l', by simp [listStep, listRef, hrun], ps', hrep⟩
  | pop =>
      obtain ⟨l', ps', hrun, hrep⟩ := h.listPopValue_eq
      exact ⟨l', by simp [listStep, listRef, hrun], ps', hrep⟩
  | unshift val =>
      obtain ⟨l', ps', hrun, hrep⟩ := h.listUnshiftValue_eq val
      exact ⟨l', by simp [listStep, listRef, hrun], ps', hrep⟩
  | shift =>
      obtain ⟨l', ps', hrun, hrep⟩ := h.listShiftValue_eq
      exact ⟨l', by simp [listStep, listRef, hrun], ps', hrep⟩
  | insert val pos =>
      obtain ⟨l', ps', hrun, hrep⟩ := h.listInsertValue_eq hlen val pos
      exact ⟨l', by simp [listStep, listRef, hrun], ps', hrep⟩
  | pick pos =>
      obtain ⟨l', hrun, hrep⟩ := h.listPickValue_eq hlen pos
      exact ⟨l', by simp [listStep, listRef, hrun], ps, hrep⟩
  | fetch pos =>
      obtain ⟨l', ps', hrun, hrep⟩ := h.listFetchValue_eq hlen pos
      exact ⟨l', by simp [listStep, listRef, hrun], ps', hrep⟩
  | set pos newval =>
      obtain ⟨l', ps', hrun, hrep⟩ := h.listSetValue_eq hlen pos newval
      exact ⟨l', by simp [listStep, listRef, hrun], ps', hrep⟩
  | subst pos newval =>
      obtain ⟨l', hrun, hrep⟩ := h.listSubstValue_eq hlen pos newval
      exact ⟨l', by simp [listStep, listRef, hrun], ps, hrep⟩
  | move srcPos dstPos =>
      by_cases hsrc : srcPos < xs.length
      · obtain ⟨l', ps', hrun, hrep⟩ :=
          h.listMoveValue_eq hlen (by rwa [← h.length_eq]) dstPos
        refine ⟨l', ?_, ps', ?_⟩
        · simp [listStep, listRef, hrun, hsrc]
        · simpa [listRef, hsrc] using hrep
      · have hrun := h.listMoveValue_of_ge srcPos dstPos
          (by rw [← h.length_eq]; omega)
        refine ⟨l, ?_, ps, ?_⟩
        · simp [listStep, listRef, hrun, hsrc]
        · simpa [listRef, hsrc] using h
  | swap pos1 pos2 =>
      obtain ⟨hne, hpos1, hpos2⟩ := hok.2.2 (pos1, pos2) rfl
      rw [listCount, h.length] at hpos1 hpos2
      obtain ⟨l', ps', hrun, hrep⟩ := h.listSwapValues_eq hlen hne hpos1 hpos2
      exact ⟨l', by simp [listStep, listRef, hrun], ps', hrep⟩
  | count =>
      exact ⟨l, by simp [listStep, listRef, h.listCount_eq], ps, h⟩

/-- Every run of the value API from a new list returns what a plain list
returns, and ends in a well-linked list with a coherent cursor. -/
theorem valueApi_refines_plainList (ops : List (ListOp V))
    (hok : StepsMeet listStep listCallOk listCreate ops) :
    ∃ l ps, runSteps listStep listCreate ops =
        some (l, (refRun listRef [] ops).2) ∧
      l.listCount = (refRun listRef [] ops).1.length ∧
      Represents l ps (refRun listRef [] ops).1 := by
  obtain ⟨l, hrun, ps, hrep⟩ := runSteps_refines listStep_refines ops listCreate []
    ⟨[], represents_listCreate⟩ hok
  exact ⟨l, ps, hrun, hrep.listCount_eq, hrep⟩

/-- A run through the padding, cursor, move and swap cases. -/
def sampleRun : List (ListOp ℕ) :=
  [.push (some 1), .push (some 2), .insert (some 7) 5, .pick 3, .unshift (some 4),
    .move 0 2, .swap 1 3, .fetch 4, .set 9 (some 8), .insert (some 5) 3, .pop, .count]

theorem valueApi_refines_plainList_sampleRun :
    ∃ l ps, runSteps listStep (listCreate : LinkedList ℕ) sampleRun =
        some (l, (refRun listRef [] sampleRun).2) ∧
      l.listCount = (refRun listRef [] sampleRun).1.length ∧
      Represents l ps (refRun listRef [] sampleRun).1 :=
  valueApi_refines_plainList sampleRun (by decide)

end LinkedList
end LibHL
