import Mathlib.Data.Fintype.Card
import LibHL.HashTable.SharedModel

/-!
# The status word of the hash table

Any number of threads read, write, grow and clear a table.  A thread that writes, grows
or clears is alone in its section, and otherwise the status counts the readers.
-/

namespace LibHL
namespace SharedTable

open Prog

variable {ι : Type} [Fintype ι]

/-- The threads that are in their section as readers. -/
def readers (t : SharedTable ι) : Finset ι :=
  Finset.univ.filter fun i => t.sections i = some .read

/-- The status word says which threads are in their sections. -/
structure StatusInv (t : SharedTable ι) : Prop where
  exclusive : ∀ i sec, t.sections i = some sec → sec ≠ .read →
    t.status = htStatus sec ∧ ∀ j, j ≠ i → t.sections j = none
  shared : (∀ i sec, t.sections i = some sec → sec = .read) →
    t.status = htStatusIdle + (readers t).card

namespace StatusInv

variable {t : SharedTable ι} {i : ι} {sec : Section}

theorem htStatus_lt (h : sec ≠ .read) : htStatus sec < htStatusIdle := by
  cases sec with
  | read => exact absurd rfl h
  | write => decide
  | grow => decide
  | clear => decide

theorem eq_read (h : StatusInv t) (hs : htStatusIdle ≤ t.status) :
    ∀ i sec, t.sections i = some sec → sec = .read := by
  intro i sec hi
  by_contra hne
  have hstatus := (h.exclusive i sec hi hne).1
  have hlt := htStatus_lt hne
  omega

theorem mem_readers : i ∈ readers t ↔ t.sections i = some .read := by
  simp [readers]

theorem eq_none_of_idle (h : StatusInv t) (hs : t.status = htStatusIdle) (i : ι) :
    t.sections i = none := by
  have hread := h.eq_read (Nat.le_of_eq hs.symm)
  have hcard := h.shared hread
  have hempty : readers t = ∅ := Finset.card_eq_zero.mp (by omega)
  cases hi : t.sections i with
  | none => rfl
  | some sec =>
      have hmem : i ∈ readers t := mem_readers.mpr (hread i sec hi ▸ hi)
      rw [hempty] at hmem
      exact absurd hmem (Finset.notMem_empty i)

theorem congr {t' : SharedTable ι} (h : StatusInv t) (hstatus : t'.status = t.status)
    (hsections : t'.sections = t.sections) : StatusInv t' := by
  have hreaders : readers t' = readers t := by
    simp only [readers, hsections]
  refine ⟨?_, ?_⟩
  · rw [hstatus, hsections]
    exact h.exclusive
  · rw [hstatus, hsections, hreaders]
    exact h.shared

variable [DecidableEq ι]

/-- The state after thread `i` went into a section or out of one. -/
abbrev moved (t : SharedTable ι) (i : ι) (status : ℕ) (sec : Option Section) : SharedTable ι :=
  { t with status := status, sections := Function.update t.sections i sec }

theorem enter_read (h : StatusInv t) (hi : t.sections i = none)
    (hs : htStatusIdle ≤ t.status) : StatusInv (moved t i (t.status + 1) (some .read)) := by
  have hread := h.eq_read hs
  have hread' : ∀ j sec, (moved t i (t.status + 1) (some .read)).sections j = some sec →
      sec = .read := by
    intro j sec hj
    by_cases hji : j = i
    · subst hji
      simp only [Function.update_self, Option.some.injEq] at hj
      exact hj.symm
    · simp only [Function.update_of_ne hji] at hj
      exact hread j sec hj
  have hinsert : readers (moved t i (t.status + 1) (some .read)) = insert i (readers t) := by
    ext j
    rw [Finset.mem_insert, mem_readers, mem_readers]
    by_cases hji : j = i
    · simp [hji]
    · simp [hji]
  have hmem : i ∉ readers t := by
    rw [mem_readers, hi]
    exact nofun
  refine ⟨fun j sec hj hne => absurd (hread' j sec hj) hne, fun _ => ?_⟩
  rw [hinsert, Finset.card_insert_of_notMem hmem]
  have hstatus := h.shared hread
  show t.status + 1 = _
  omega

theorem leave_read (h : StatusInv t) (hi : t.sections i = some .read) :
    htStatusRead ≤ t.status ∧ StatusInv (moved t i (t.status - 1) none) := by
  have hread : ∀ j sec, t.sections j = some sec → sec = .read := by
    intro j sec hj
    by_contra hne
    have hnone := (h.exclusive j sec hj hne).2 i
    by_cases hij : i = j
    · subst hij
      rw [hi] at hj
      exact hne (Option.some.inj hj).symm
    · rw [hnone hij] at hi
      cases hi
  have hstatus := h.shared hread
  have hmem : i ∈ readers t := mem_readers.mpr hi
  have hpos : 0 < (readers t).card := Finset.card_pos.mpr ⟨i, hmem⟩
  have hread' : ∀ j sec, (moved t i (t.status - 1) none).sections j = some sec →
      sec = .read := by
    intro j sec hj
    by_cases hji : j = i
    · subst hji
      simp at hj
    · simp only [Function.update_of_ne hji] at hj
      exact hread j sec hj
  have herase : readers (moved t i (t.status - 1) none) = (readers t).erase i := by
    ext j
    rw [Finset.mem_erase, mem_readers, mem_readers]
    by_cases hji : j = i
    · simp [hji]
    · simp [hji]
  refine ⟨?_, fun j sec hj hne => absurd (hread' j sec hj) hne, fun _ => ?_⟩
  · show 3 + 1 ≤ t.status
    rw [show htStatusIdle = 3 from rfl] at hstatus
    omega
  · rw [herase, Finset.card_erase_of_mem hmem]
    show t.status - 1 = _
    omega

theorem enter_exclusive (h : StatusInv t) (hne : sec ≠ .read) (hs : t.status = htStatusIdle) :
    StatusInv (moved t i (htStatus sec) (some sec)) := by
  have hnone := h.eq_none_of_idle hs
  have hother : ∀ j, j ≠ i → (moved t i (htStatus sec) (some sec)).sections j = none := by
    intro j hj
    simp only [Function.update_of_ne hj]
    exact hnone j
  refine ⟨fun j sec' hj _ => ?_, fun hread => ?_⟩
  · by_cases hji : j = i
    · subst hji
      simp only [Function.update_self, Option.some.injEq] at hj
      exact ⟨congrArg htStatus hj, hother⟩
    · rw [hother j hji] at hj
      cases hj
  · exact absurd (hread i sec (Function.update_self _ _ _)) hne

theorem leave_exclusive (h : StatusInv t) (hne : sec ≠ .read) (hi : t.sections i = some sec) :
    t.status = htStatus sec ∧ StatusInv (moved t i htStatusIdle none) := by
  obtain ⟨hstatus, hother⟩ := h.exclusive i sec hi hne
  have hnone : ∀ j, (moved t i htStatusIdle none).sections j = none := by
    intro j
    by_cases hji : j = i
    · subst hji
      simp
    · simp only [Function.update_of_ne hji]
      exact hother j hji
  refine ⟨hstatus, fun j sec' hj _ => ?_, fun _ => ?_⟩
  · rw [hnone j] at hj
    cases hj
  · have hempty : readers (moved t i htStatusIdle none) = ∅ := by
      refine Finset.eq_empty_of_forall_notMem fun j hj => ?_
      rw [mem_readers, hnone j] at hj
      cases hj
    rw [hempty, Finset.card_empty]
    rfl

end StatusInv

/-! ## The specification of a thread -/

/-- A thread leaves the other threads in their sections. -/
def statusSpec (i : ι) : Spec (SharedTable ι) where
  inv := StatusInv
  rely := fun t t' => t'.sections i = t.sections i
  guar := fun t t' => ∀ j, j ≠ i → t'.sections j = t.sections j
  cond := fun _ _ => True
  rely_refl := fun _ => rfl
  rely_trans := fun _ _ _ h₁ h₂ => h₂.trans h₁

/-- Thread `i` is in the section. -/
def In (i : ι) (sec : Option Section) (t : SharedTable ι) : Prop := t.sections i = sec

/-- A step that leaves the status and the sections alone. -/
def Unmoved (t t' : SharedTable ι) : Prop := t'.status = t.status ∧ t'.sections = t.sections

section Triples

variable {i : ι} {sec : Option Section}

theorem in_stable : Stable (statusSpec i) (In i sec) :=
  fun _ _ hrely _ hin => hrely.trans hin

theorem unmoved_triple {α : Type} {p : Prog (SharedTable ι) α} (hp : Steps Unmoved p) :
    Triple (statusSpec i) (In i sec) p (fun _ => In i sec) := by
  refine hp.triple (fun t t' hinv h => ⟨hinv.congr h.1 h.2, fun j _ => congrFun h.2 j⟩)
    in_stable fun t t' h hin => ?_
  exact (congrFun h.2 i).trans hin

variable [DecidableEq ι]

/-- A successful exchange of the status takes the thread to another section. -/
theorem casStatus_triple {old new : ℕ} {sec' : Option Section} {φ : ℕ → Prop}
    (hok : ∀ t, StatusInv t → In i sec t → t.status = old →
      StatusInv (StatusInv.moved t i new sec'))
    (hφ : ∀ t, StatusInv t → In i sec t → φ t.status) :
    Triple (statusSpec i) (In i sec) (casStatus i old new sec')
      (fun r t => φ r ∧ In i (if r = old then sec' else sec) t) := by
  refine Triple.atomic in_stable fun t t' r hinv hin hf _ => ?_
  split at hf
  · rename_i hold
    cases hf
    refine ⟨hok t hinv hin hold, fun j hj => Function.update_of_ne hj _ _, hφ t hinv hin, ?_⟩
    rw [if_pos hold]
    exact Function.update_self _ _ _
  · rename_i hold
    cases hf
    refine ⟨hinv, fun _ _ => rfl, hφ t hinv hin, ?_⟩
    rw [if_neg hold]
    exact hin

end Triples

/-! ## Steps that leave the status alone -/

section Unmoved

variable {ι : Type}

theorem get_unmoved {β : Type} (f : SharedTable ι → β) : Steps Unmoved (get f) := by
  refine Steps.atomic fun t t' a h => ?_
  cases h
  exact ⟨rfl, rfl⟩

theorem modify_unmoved {f : SharedTable ι → SharedTable ι} (hf : ∀ t, Unmoved t (f t)) :
    Steps Unmoved (modify f) := by
  refine Steps.atomic fun t t' a h => ?_
  cases h
  exact hf t

theorem choose_unmoved : Steps Unmoved (choose (ι := ι)) := by
  refine Steps.atomic fun t t' a h => ?_
  cases h
  exact ⟨rfl, rfl⟩

theorem atomicSet_unmoved {β : Type} {read : Prog (SharedTable ι) β}
    {cas : β → Prog (SharedTable ι) Bool} (hread : Steps Unmoved read)
    (hcas : ∀ b, Steps Unmoved (cas b)) (n : ℕ) : Steps Unmoved (atomicSet read cas n) := by
  induction n with
  | zero => exact Steps.stop
  | succ n ih =>
      refine hread.bind fun old => (hcas old).bind fun ok => ?_
      cases ok with
      | false => exact ih
      | true => exact Steps.pure ()

theorem readSlot_unmoved (array index : ℕ) : Steps Unmoved (readSlot (ι := ι) array index) := by
  refine Steps.atomic fun t t' a h => ?_
  obtain ⟨slots, -, h⟩ := Option.bind_eq_some_iff.mp h
  obtain ⟨list, -, heq⟩ := Option.map_eq_some_iff.mp h
  cases heq
  exact ⟨rfl, rfl⟩

theorem lookup_unmoved (hash : UInt32) (index : ℕ) :
    Steps Unmoved (lookup (ι := ι) hash index) := by
  refine Steps.atomic fun t t' a h => ?_
  obtain ⟨slots, -, h⟩ := Option.bind_eq_some_iff.mp h
  obtain ⟨list, -, heq⟩ := Option.map_eq_some_iff.mp h
  cases heq
  exact ⟨rfl, rfl⟩

theorem casSlot_unmoved (array index : ℕ) (old new : Option Addr) :
    Steps Unmoved (casSlot (ι := ι) array index old new) := by
  refine Steps.atomic fun t t' a h => ?_
  obtain ⟨slots, -, h⟩ := Option.bind_eq_some_iff.mp h
  obtain ⟨list, -, heq⟩ := Option.map_eq_some_iff.mp h
  split at heq
  · cases heq
    exact ⟨rfl, rfl⟩
  · cases heq
    exact ⟨rfl, rfl⟩

theorem writeItem_unmoved (index : ℕ) (list : Option Addr) :
    Steps Unmoved (writeItem (ι := ι) index list) := by
  refine Steps.atomic fun t t' a h => ?_
  obtain ⟨slots, -, h⟩ := Option.bind_eq_some_iff.mp h
  obtain ⟨list, -, heq⟩ := Option.map_eq_some_iff.mp h
  cases heq
  exact ⟨rfl, rfl⟩

theorem modifyList_unmoved (list : Addr) (f : SharedList ι → SharedList ι) :
    Steps Unmoved (modifyList list f) := by
  refine Steps.atomic fun t t' a h => ?_
  obtain ⟨l, -, heq⟩ := Option.map_eq_some_iff.mp h
  cases heq
  exact ⟨rfl, rfl⟩

theorem readList_unmoved {β : Type} (list : Addr) (f : SharedList ι → β) :
    Steps Unmoved (readList list f) := by
  refine Steps.atomic fun t t' a h => ?_
  obtain ⟨l, -, heq⟩ := Option.map_eq_some_iff.mp h
  cases heq
  exact ⟨rfl, rfl⟩

theorem allocList_unmoved (holder : Option ι) : Steps Unmoved (allocList holder) := by
  refine Steps.atomic fun t t' a h => ?_
  cases h
  exact ⟨rfl, rfl⟩

theorem destroyList_unmoved (list : Addr) : Steps Unmoved (destroyList (ι := ι) list) := by
  refine Steps.atomic fun t t' a h => ?_
  obtain ⟨lists, -, heq⟩ := Option.map_eq_some_iff.mp h
  cases heq
  exact ⟨rfl, rfl⟩

theorem spinLock_unmoved (i : ι) (list : Addr) : Steps Unmoved (spinLock i list) := by
  refine Steps.atomic fun t t' a h => ?_
  obtain ⟨l, -, h⟩ := Option.bind_eq_some_iff.mp h
  split at h
  · cases h
    exact ⟨rfl, rfl⟩
  · cases h

theorem spinUnlock_unmoved (list : Addr) : Steps Unmoved (spinUnlock (ι := ι) list) :=
  modifyList_unmoved list _

theorem mutexLock_unmoved (i : ι) : Steps Unmoved (mutexLock i) := by
  refine Steps.atomic fun t t' a h => ?_
  split at h
  · cases h
    exact ⟨rfl, rfl⟩
  · cases h

theorem mutexUnlock_unmoved : Steps Unmoved (mutexUnlock (ι := ι)) :=
  modify_unmoved fun _ => ⟨rfl, rfl⟩

/-! ## Emptying the buckets -/

theorem newBucket_unmoved (bound array index : ℕ) (registered : List Addr) :
    Steps Unmoved (newBucket (ι := ι) bound array index registered) := by
  refine (readSlot_unmoved array index).bind fun slot => ?_
  cases slot with
  | some list => exact Steps.pure _
  | none =>
      refine choose_unmoved.bind fun ok => ?_
      cases ok with
      | false => exact Steps.stop
      | true =>
          refine (allocList_unmoved none).bind fun list => ?_
          refine (atomicSet_unmoved (readSlot_unmoved array index)
            (fun old => casSlot_unmoved array index old (some list)) bound).bind fun _ => ?_
          exact (modifyList_unmoved list _).bind fun _ => Steps.pure _

theorem moveItem_unmoved (source target : Addr) (item : HtItem) :
    Steps Unmoved (moveItem (ι := ι) source target item) := by
  refine Steps.atomic fun t t' a h => ?_
  obtain ⟨l, -, h⟩ := Option.bind_eq_some_iff.mp h
  obtain ⟨l', -, heq⟩ := Option.map_eq_some_iff.mp h
  cases heq
  exact ⟨rfl, rfl⟩

theorem moveItems_unmoved (bound : ℕ) (list : Addr) (array newSize n : ℕ)
    (registered : List Addr) :
    Steps Unmoved (moveItems (ι := ι) bound list array newSize n registered) := by
  induction n generalizing registered with
  | zero => exact Steps.stop
  | succ n ih =>
      refine (readList_unmoved list _).bind fun item => ?_
      cases item with
      | none => exact Steps.pure _
      | some item =>
          refine (newBucket_unmoved bound array _ registered).bind fun r => ?_
          exact (moveItem_unmoved list r.1 item).bind fun _ => ih r.2

theorem moveLists_unmoved (bound : ℕ) (i : ι) (oldItems array newSize : ℕ)
    (lists registered : List Addr) :
    Steps Unmoved (moveLists bound i oldItems array newSize lists registered) := by
  induction lists generalizing registered with
  | nil => exact Steps.pure _
  | cons list lists ih =>
      refine (readList_unmoved list _).bind fun index => ?_
      refine (atomicSet_unmoved (readSlot_unmoved oldItems index)
        (fun old => casSlot_unmoved oldItems index old none) bound).bind fun _ => ?_
      refine (spinLock_unmoved i list).bind fun _ => ?_
      refine (moveItems_unmoved bound list array newSize bound registered).bind fun registered => ?_
      refine Steps.bind (modify_unmoved fun _ => ⟨rfl, rfl⟩) fun _ => ?_
      exact (destroyList_unmoved list).bind fun _ => ih registered

theorem casSize_unmoved (old new : ℕ) : Steps Unmoved (casSize (ι := ι) old new) := by
  refine Steps.atomic fun t t' a h => ?_
  split at h
  · cases h
    exact ⟨rfl, rfl⟩
  · cases h
    exact ⟨rfl, rfl⟩

theorem rehash_unmoved (bound : ℕ) (i : ι) (array newSize : ℕ) :
    Steps Unmoved (rehash bound i array newSize) := by
  refine (mutexLock_unmoved i).bind fun _ => ?_
  refine Steps.bind (Steps.atomic fun t t' a h => ?_) fun oldItems => ?_
  · cases h
    exact ⟨rfl, rfl⟩
  refine (atomicSet_unmoved (get_unmoved _)
    (fun old => casSize_unmoved old newSize) bound).bind fun _ => ?_
  refine (get_unmoved _).bind fun lists => ?_
  refine (moveLists_unmoved bound i oldItems array newSize lists []).bind fun registered => ?_
  refine Steps.bind (modify_unmoved fun _ => ⟨rfl, rfl⟩) fun _ => ?_
  exact mutexUnlock_unmoved.bind fun _ => Steps.pure _

theorem callFreeItemCb_unmoved (data : Option Data) :
    Steps Unmoved (callFreeItemCb (ι := ι) data) := by
  refine modify_unmoved fun t => ?_
  split
  · exact ⟨rfl, rfl⟩
  · exact ⟨rfl, rfl⟩

theorem clearItems_unmoved (list : Addr) (items : List HtItem) :
    Steps Unmoved (clearItems (ι := ι) list items) := by
  induction items with
  | nil => exact Steps.pure _
  | cons item items ih =>
      refine (modifyList_unmoved list _).bind fun _ => ?_
      refine (callFreeItemCb_unmoved item.data).bind fun _ => ?_
      exact Steps.bind (modify_unmoved fun _ => ⟨rfl, rfl⟩) fun _ => ih

theorem clearLists_unmoved (i : ι) (lists : List Addr) :
    Steps Unmoved (clearLists i lists) := by
  induction lists with
  | nil => exact Steps.pure _
  | cons list lists ih =>
      refine (spinLock_unmoved i list).bind fun _ => ?_
      refine (readList_unmoved list _).bind fun items => ?_
      refine (clearItems_unmoved list items).bind fun _ => ?_
      refine (readList_unmoved list _).bind fun index => ?_
      refine (writeItem_unmoved index none).bind fun _ => ?_
      refine Steps.bind (modify_unmoved fun _ => ⟨rfl, rfl⟩) fun _ => ?_
      exact (destroyList_unmoved list).bind fun _ => ih

theorem allocItem_unmoved (key : Key) : Steps Unmoved (allocItem (ι := ι) key) := by
  refine choose_unmoved.bind fun ok => ?_
  cases ok with
  | false => exact Steps.pure _
  | true =>
      show Steps Unmoved (if 32 < key.length then choose else pure true)
      split
      · exact choose_unmoved
      · exact Steps.pure _

end Unmoved

/-! ## Readers -/

section Sections

variable [DecidableEq ι] {i : ι}

/-- A first reader finds the table idle. -/
theorem enter_idle_triple :
    Triple (statusSpec i) (In i none) (casStatus i htStatusIdle htStatusRead (some .read))
      (fun r => In i (if r = htStatusIdle then some .read else none)) := by
  refine (casStatus_triple (φ := fun _ => True) (fun t hinv hin hs => ?_)
    fun _ _ _ => trivial).weaken (fun _ h => h) fun r t h => h.2
  have henter := hinv.enter_read hin (Nat.le_of_eq hs.symm)
  rw [hs] at henter
  exact henter

theorem firstReader_triple (n : ℕ) :
    Triple (statusSpec i) (In i none) (firstReader i n)
      (fun r => In i (if r = htStatusIdle then some .read else none)) := by
  induction n with
  | zero => exact Triple.stop
  | succ n ih =>
      refine enter_idle_triple.bind fun r => ?_
      by_cases hlt : r < htStatusIdle
      · rw [if_pos hlt, if_neg (Nat.ne_of_lt hlt)]
        refine (unmoved_triple choose_unmoved).bind fun ok => ?_
        cases ok with
        | true => exact ih
        | false =>
            refine Triple.ret fun t hin => ?_
            rw [if_neg (Nat.ne_of_lt hlt)]
            exact hin
      · rw [if_neg hlt]
        exact Triple.ret fun t hin => hin

theorem joinOnce_triple (status : ℕ) :
    Triple (statusSpec i) (In i none) (joinReaders.joinOnce i status)
      (fun joined => In i (if joined then some .read else none)) := by
  unfold joinReaders.joinOnce
  by_cases hread : htStatusRead ≤ status
  · rw [if_pos hread]
    refine Triple.bind (casStatus_triple (φ := fun _ => True) (fun t hinv hin hs => ?_)
      fun _ _ _ => trivial) fun old => Triple.ret fun t h => ?_
    · have henter := hinv.enter_read hin (by rw [hs]; exact Nat.le_of_succ_le hread)
      rw [hs] at henter
      exact henter
    · simpa only [decide_eq_true_eq] using h.2
  · rw [if_neg hread]
    exact Triple.ret fun t hin => hin

theorem joinReaders_triple (n status : ℕ) :
    Triple (statusSpec i) (In i (if status = htStatusIdle then some .read else none))
      (joinReaders i n status) (fun _ => In i (some .read)) := by
  induction n generalizing status with
  | zero => exact Triple.stop
  | succ n ih =>
      unfold joinReaders
      by_cases hidle : status = htStatusIdle
      · rw [if_pos hidle, if_pos hidle]
        exact Triple.ret fun t hin => hin
      · rw [if_neg hidle, if_neg hidle]
        refine (joinOnce_triple status).bind fun joined => ?_
        cases joined with
        | true => exact Triple.ret fun t hin => hin
        | false =>
            refine enter_idle_triple.bind fun r => ?_
            by_cases hlt : r < htStatusIdle
            · rw [if_pos hlt]
              exact (unmoved_triple choose_unmoved).bind fun _ => ih r
            · rw [if_neg hlt]
              exact ih r

theorem leaveReaders_triple (n status : ℕ) :
    Triple (statusSpec i) (In i (some .read)) (leaveReaders i n status)
      (fun _ => In i none) := by
  induction n generalizing status with
  | zero => exact Triple.stop
  | succ n ih =>
      refine Triple.bind (casStatus_triple (φ := fun _ => True) (fun t hinv hin hs => ?_)
        fun _ _ _ => trivial) fun r => Triple.of_fact fun _ => ?_
      · have hleave := (hinv.leave_read hin).2
        rw [hs] at hleave
        exact hleave
      by_cases hr : r = status
      · rw [if_pos hr, if_pos hr]
        exact Triple.ret fun t hin => hin
      · rw [if_neg hr, if_neg hr]
        refine Triple.bind (casStatus_triple (φ := fun r => htStatusRead ≤ r)
          (fun t hinv hin hs => ?_) fun t hinv hin => (hinv.leave_read hin).1)
          fun r => Triple.of_fact fun hle => ?_
        · have hleave := (hinv.leave_read hin).2
          rw [hs] at hleave
          exact hleave
        by_cases hlt : htStatusRead < r
        · rw [if_neg (Nat.ne_of_gt hlt), if_pos hlt]
          exact ih r
        · rw [if_pos (Nat.le_antisymm (Nat.le_of_not_lt hlt) hle), if_neg hlt]
          exact Triple.ret fun t hin => hin

theorem htGetList_triple (bound : ℕ) (hash : UInt32) :
    Triple (statusSpec i) (In i none) (htGetList bound i hash) (fun _ => In i none) := by
  refine (unmoved_triple (get_unmoved _)).bind fun size => ?_
  refine (firstReader_triple bound).bind fun status => ?_
  refine (joinReaders_triple bound status).bind fun status => ?_
  refine (unmoved_triple (lookup_unmoved hash _)).bind fun list => ?_
  cases list with
  | none =>
      exact (leaveReaders_triple bound _).bind fun _ => Triple.ret fun t hin => hin
  | some list =>
      refine (unmoved_triple (spinLock_unmoved i list)).bind fun _ => ?_
      exact (leaveReaders_triple bound _).bind fun _ => Triple.ret fun t hin => hin

/-! ## Writers -/

theorem enter_exclusive_triple {sec : Section} (hsec : sec ≠ .read) :
    Triple (statusSpec i) (In i none) (casStatus i htStatusIdle (htStatus sec) (some sec))
      (fun r => In i (if r = htStatusIdle then some sec else none)) := by
  refine (casStatus_triple (φ := fun _ => True) (fun t hinv hin hs => ?_)
    fun _ _ _ => trivial).weaken (fun _ h => h) fun r t h => h.2
  exact hinv.enter_exclusive hsec hs

theorem acquire_triple {sec : Section} (hsec : sec ≠ .read) (n : ℕ) :
    Triple (statusSpec i) (In i none) (acquire i sec n) (fun _ => In i (some sec)) := by
  induction n with
  | zero => exact Triple.stop
  | succ n ih =>
      refine (enter_exclusive_triple hsec).bind fun r => ?_
      by_cases hr : r = htStatusIdle
      · rw [if_pos hr, if_pos hr]
        exact Triple.ret fun t hin => hin
      · rw [if_neg hr, if_neg hr]
        exact (unmoved_triple choose_unmoved).bind fun _ => ih

theorem release_triple {sec : Section} (hsec : sec ≠ .read) :
    Triple (statusSpec i) (In i (some sec)) (release i sec) (fun _ => In i none) := by
  refine Triple.bind (casStatus_triple (φ := fun r => r = htStatus sec)
    (fun t hinv hin hs => (hinv.leave_exclusive hsec hin).2)
    fun t hinv hin => (hinv.leave_exclusive hsec hin).1) fun r => Triple.of_fact fun hr => ?_
  rw [if_pos hr]
  exact Triple.ret fun t hin => hin

theorem htSetList_triple (bound : ℕ) (hash : UInt32) :
    Triple (statusSpec i) (In i none) (htSetList bound i hash) (fun _ => In i none) := by
  refine (unmoved_triple choose_unmoved).bind fun ok => ?_
  cases ok with
  | false => exact Triple.ret fun t hin => hin
  | true =>
      refine (unmoved_triple (allocList_unmoved (some i))).bind fun list => ?_
      refine (unmoved_triple (get_unmoved _)).bind fun size => ?_
      refine (unmoved_triple (modifyList_unmoved list _)).bind fun _ => ?_
      refine (acquire_triple (by decide) bound).bind fun _ => ?_
      refine (unmoved_triple (get_unmoved _)).bind fun size => ?_
      refine (unmoved_triple (modifyList_unmoved list _)).bind fun _ => ?_
      refine (unmoved_triple (get_unmoved _)).bind fun items => ?_
      refine (unmoved_triple (readSlot_unmoved items _)).bind fun slot => ?_
      cases slot with
      | some list' =>
          refine (unmoved_triple (destroyList_unmoved list)).bind fun _ => ?_
          refine (unmoved_triple (get_unmoved _)).bind fun items => ?_
          refine (unmoved_triple (readSlot_unmoved items _)).bind fun slot => ?_
          cases slot with
          | none => exact Triple.stop
          | some list' =>
              refine (unmoved_triple (spinLock_unmoved i list')).bind fun _ => ?_
              exact (release_triple (by decide)).bind fun _ => Triple.ret fun t hin => hin
      | none =>
          refine (unmoved_triple (writeItem_unmoved _ _)).bind fun _ => ?_
          refine (release_triple (by decide)).bind fun _ => ?_
          refine (unmoved_triple (mutexLock_unmoved i)).bind fun _ => ?_
          refine Triple.bind (unmoved_triple (modify_unmoved fun _ => ⟨rfl, rfl⟩)) fun _ => ?_
          exact (unmoved_triple mutexUnlock_unmoved).bind fun _ => Triple.ret fun t hin => hin

theorem growSection_triple (bound : ℕ) :
    Triple (statusSpec i) (In i (some .grow)) (growSection bound i) (fun _ => In i none) := by
  refine (unmoved_triple (get_unmoved _)).bind fun maxSize => ?_
  refine (unmoved_triple (get_unmoved _)).bind fun size => ?_
  by_cases hmax : maxSize ≠ 0 ∧ maxSize ≤ size
  · rw [if_pos hmax]
    exact release_triple (by decide)
  · rw [if_neg hmax]
    refine (unmoved_triple choose_unmoved).bind fun ok => ?_
    cases ok with
    | false => exact release_triple (by decide)
    | true =>
        refine (unmoved_triple (get_unmoved _)).bind fun size => ?_
        refine (unmoved_triple choose_unmoved).bind fun ok => ?_
        cases ok with
        | false => exact release_triple (by decide)
        | true =>
            refine Triple.bind (unmoved_triple (Steps.atomic fun t t' a h => ?_))
              fun array => ?_
            · cases h
              exact ⟨rfl, rfl⟩
            refine (unmoved_triple (rehash_unmoved bound i array _)).bind fun oldItems => ?_
            refine (release_triple (by decide)).bind fun _ => ?_
            refine unmoved_triple (Steps.atomic fun t t' a h => ?_)
            obtain ⟨arrays, -, heq⟩ := Option.map_eq_some_iff.mp h
            cases heq
            exact ⟨rfl, rfl⟩

theorem htGrowTable_triple (bound : ℕ) :
    Triple (statusSpec i) (In i none) (htGrowTable bound i) (fun _ => In i none) := by
  refine (enter_exclusive_triple (by decide)).bind fun r => ?_
  by_cases hr : r = htStatusIdle
  · rw [if_pos hr, if_pos hr]
    exact growSection_triple bound
  · rw [if_neg hr, if_neg hr]
    exact Triple.ret fun t hin => hin

theorem htClear_triple (bound : ℕ) :
    Triple (statusSpec i) (In i none) (htClear bound i) (fun _ => In i none) := by
  refine (acquire_triple (by decide) bound).bind fun _ => ?_
  refine (unmoved_triple (mutexLock_unmoved i)).bind fun _ => ?_
  refine (unmoved_triple (get_unmoved _)).bind fun lists => ?_
  refine (unmoved_triple (clearLists_unmoved i lists)).bind fun _ => ?_
  refine (unmoved_triple mutexUnlock_unmoved).bind fun _ => ?_
  exact release_triple (by decide)

/-! ## Setting and getting -/

theorem finishSet_triple (bound : ℕ) (list : Addr) (prev : Option Data) :
    Triple (statusSpec i) (In i none) (finishSet bound i list prev) (fun _ => In i none) := by
  have hrelease : Triple (statusSpec i) (In i none)
      (do if prev.isSome then callFreeItemCb prev
          pure (0 : ℤ)) (fun _ => In i none) := by
    cases prev with
    | none => exact Triple.ret fun t hin => hin
    | some data =>
        exact (unmoved_triple (callFreeItemCb_unmoved (some data))).bind fun _ =>
          Triple.ret fun t hin => hin
  refine (unmoved_triple (spinUnlock_unmoved list)).bind fun _ => ?_
  refine (unmoved_triple (get_unmoved _)).bind fun size => ?_
  refine (unmoved_triple (get_unmoved _)).bind fun count => ?_
  refine (unmoved_triple (get_unmoved _)).bind fun maxSize => ?_
  by_cases hgrow : size + size / 3 < count ∧ (maxSize = 0 ∨ size < maxSize)
  · rw [if_pos hgrow]
    exact (htGrowTable_triple bound).bind fun _ => hrelease
  · rw [if_neg hgrow]
    exact hrelease

theorem setInList_triple (bound : ℕ) (list : Addr) (hash : UInt32) (key : Key) (data : Data)
    (dlen : ℕ) : Triple (statusSpec i) (In i none) (setInList bound i list hash key data dlen)
      (fun _ => In i none) := by
  refine (unmoved_triple (readList_unmoved list _)).bind fun found => ?_
  cases found.bind HtItem.data with
  | none =>
      refine (unmoved_triple (allocItem_unmoved key)).bind fun ok => ?_
      cases ok with
      | true =>
          refine (unmoved_triple (modifyList_unmoved list _)).bind fun _ => ?_
          refine Triple.bind (unmoved_triple (modify_unmoved fun _ => ⟨rfl, rfl⟩)) fun _ => ?_
          exact finishSet_triple bound list none
      | false =>
          exact (unmoved_triple (spinUnlock_unmoved list)).bind fun _ =>
            Triple.ret fun t hin => hin
  | some prev =>
      refine (unmoved_triple (modifyList_unmoved list _)).bind fun _ => ?_
      exact finishSet_triple bound list (some prev)

theorem htSet_triple (bound : ℕ) (key : Key) (data : Data) (dlen : ℕ) :
    Triple (statusSpec i) (In i none) (htSet bound i key data dlen) (fun _ => In i none) := by
  unfold htSet
  by_cases hkey : key.length = 0
  · rw [if_pos hkey]
    exact Triple.ret fun t hin => hin
  · rw [if_neg hkey]
    refine (unmoved_triple (get_unmoved _)).bind fun hash => ?_
    refine Triple.bind (Q := fun _ => In i none) ?_ fun list => ?_
    · refine (htGetList_triple bound hash).bind fun list => ?_
      cases list with
      | none => exact htSetList_triple bound hash
      | some list => exact Triple.ret fun t hin => hin
    · cases list with
      | none => exact Triple.ret fun t hin => hin
      | some list => exact setInList_triple bound list hash key data dlen

theorem htGet_triple (bound : ℕ) (key : Key) :
    Triple (statusSpec i) (In i none) (htGet bound i key) (fun _ => In i none) := by
  refine (unmoved_triple (get_unmoved _)).bind fun hash => ?_
  refine (htGetList_triple bound hash).bind fun list => ?_
  cases list with
  | none => exact Triple.ret fun t hin => hin
  | some list =>
      refine (unmoved_triple (readList_unmoved list _)).bind fun found => ?_
      exact (unmoved_triple (spinUnlock_unmoved list)).bind fun _ => Triple.ret fun t hin => hin

end Sections

/-! ## Any number of threads -/

/-- What a thread does with the table. -/
inductive Call where
  | getList (hash : UInt32)
  | setList (hash : UInt32)
  | growTable
  | clear
  | set (key : Key) (data : Data) (dlen : ℕ)
  | get (key : Key)

section Threads

/-- The callers of `ht_get_list` and `ht_set_list` unlock the bucket that they get. -/
def unlockList : Option Addr → Prog (SharedTable ι) Unit
  | none => pure ()
  | some list => spinUnlock list

theorem unlockList_triple {i : ι} (list : Option Addr) :
    Triple (statusSpec i) (In i none) (unlockList list) (fun _ => In i none) := by
  cases list with
  | none => exact Triple.ret fun t hin => hin
  | some list => exact unmoved_triple (spinUnlock_unmoved list)

variable [DecidableEq ι]

/-- One call. -/
def perform (bound : ℕ) (i : ι) : Call → Prog (SharedTable ι) Unit
  | .getList hash => htGetList bound i hash >>= unlockList
  | .setList hash => htSetList bound i hash >>= unlockList
  | .growTable => htGrowTable bound i
  | .clear => htClear bound i
  | .set key data dlen => do
      let _ ← htSet bound i key data dlen
      pure ()
  | .get key => do
      let _ ← htGet bound i key
      pure ()

/-- One call after the other. -/
def performAll (bound : ℕ) (i : ι) : List Call → Prog (SharedTable ι) Unit
  | [] => pure ()
  | call :: calls => do
      perform bound i call
      performAll bound i calls

theorem perform_triple (bound : ℕ) (i : ι) (call : Call) :
    Triple (statusSpec i) (In i none) (perform bound i call) (fun _ => In i none) := by
  cases call with
  | getList hash => exact (htGetList_triple bound hash).bind unlockList_triple
  | setList hash => exact (htSetList_triple bound hash).bind unlockList_triple
  | growTable => exact htGrowTable_triple bound
  | clear => exact htClear_triple bound
  | set key data dlen =>
      exact (htSet_triple bound key data dlen).bind fun _ => Triple.ret fun t hin => hin
  | get key => exact (htGet_triple bound key).bind fun _ => Triple.ret fun t hin => hin

theorem performAll_triple (bound : ℕ) (i : ι) (calls : List Call) :
    Triple (statusSpec i) (In i none) (performAll bound i calls) (fun _ => In i none) := by
  induction calls with
  | nil => exact Triple.ret fun t hin => hin
  | cons call calls ih => exact (perform_triple bound i call).bind fun _ => ih

/-- Threads that each make a list of calls. -/
def callThreads (bound : ℕ) (t : SharedTable ι) (calls : ι → List Call) :
    Threads ι (SharedTable ι) :=
  { state := t
    progs := fun i => performAll bound i (calls i) }

/-- In every state that threads reach from an idle table, the status says exactly which
threads are in their sections, and a thread that is done is in none.  So the table is
idle again when all are done. -/
theorem status_matches_sections (bound : ℕ) (t : SharedTable ι) (calls : ι → List Call)
    (hstatus : t.status = htStatusIdle) (hsections : ∀ i, t.sections i = none)
    (schedule : List ι) (c : Threads ι (SharedTable ι)) (os : List Unit)
    (hrun : (callThreads bound t calls).run schedule = some (c, os)) :
    (∀ i sec, c.state.sections i = some sec → sec ≠ .read →
      c.state.status = htStatus sec ∧ ∀ j, j ≠ i → c.state.sections j = none) ∧
    ((∀ i sec, c.state.sections i = some sec → sec = .read) →
      c.state.status = htStatusIdle + (readers c.state).card) ∧
    (∀ i, c.progs i = .ret () → c.state.sections i = none) ∧
    ((∀ i, c.progs i = .ret ()) → c.state.status = htStatusIdle) := by
  have hinv : StatusInv t := by
    refine ⟨fun i sec hi => ?_, fun _ => ?_⟩
    · rw [hsections i] at hi
      cases hi
    · have hempty : readers t = ∅ := by simp [readers, hsections]
      rw [hempty, hstatus]
      rfl
  have hmeet : StepsMeet Threads.step (Threads.Meets fun _ _ _ => True)
      (callThreads bound t calls) schedule :=
    stepsMeet_of_forall (fun _ _ _ _ => trivial) _ _
  obtain ⟨hinv', hkeeps⟩ := Threads.keeps_of_run (Q := fun i _ => In i none) statusSpec
    (fun _ => rfl) (fun _ => rfl) (fun i j hne s s' _ _ hguar => hguar j hne.symm)
    (fun _ => in_stable) schedule (callThreads bound t calls) c os hinv
    (fun i => performAll_triple bound i (calls i) t (hsections i)) hmeet hrun
  have hdone : ∀ i, c.progs i = .ret () → c.state.sections i = none := by
    intro i hi
    have hpost := hkeeps i
    rw [hi] at hpost
    exact hpost
  refine ⟨hinv'.exclusive, hinv'.shared, hdone, fun hall => ?_⟩
  have hempty : readers c.state = ∅ := by
    refine Finset.eq_empty_of_forall_notMem fun i hi => ?_
    rw [StatusInv.mem_readers, hdone i (hall i)] at hi
    cases hi
  have hread : ∀ i sec, c.state.sections i = some sec → sec = .read := by
    intro i sec hi
    rw [hdone i (hall i)] at hi
    cases hi
  rw [hinv'.shared hread, hempty]
  rfl

end Threads

/-- Two threads that look for the bucket of a hash. -/
def twoReaders : Threads (Fin 2) (SharedTable (Fin 2)) :=
  callThreads 2 (htCreate 8 0 0 false fun _ => true) fun _ => [.getList 0]

/-- One thread is the first reader and the other one joins it. -/
theorem status_matches_sections_twoReaders :
    ∃ c os, twoReaders.run [0, 0, 1, 1, 1] = some (c, os) ∧
      (∀ i, c.state.sections i = some .read) ∧
      ((∀ i sec, c.state.sections i = some sec → sec = .read) →
        c.state.status = htStatusIdle + (readers c.state).card) := by
  have hsome : (twoReaders.run [0, 0, 1, 1, 1]).isSome := by decide
  obtain ⟨⟨c, os⟩, hrun⟩ := Option.isSome_iff_exists.mp hsome
  have hread : (twoReaders.run [0, 0, 1, 1, 1]).map (fun r => (r.1.state.sections 0,
      r.1.state.sections 1)) = some (some .read, some .read) := by
    decide
  rw [hrun] at hread
  simp only [Option.map_some, Option.some.injEq, Prod.mk.injEq] at hread
  refine ⟨c, os, hrun, ?_, ?_⟩
  · rw [Fin.forall_fin_two]
    exact hread
  · exact (status_matches_sections 2 (htCreate 8 0 0 false fun _ => true)
      (fun _ => [.getList 0]) rfl (fun _ => rfl) [0, 0, 1, 1, 1] c os hrun).2.1

end SharedTable
end LibHL
