import LibHL.LinkedList.Invariant
import Mathlib.Data.List.InsertIdx

/-!
# What the entry routines do to a represented list

One lemma for each linking and unlinking routine of `linklist.c`.  Linking a
loose entry inserts it into the chain at a position, unlinking removes a
position and leaves the entry loose; both keep the cursor coherent.  Nothing
outside the chain and the entry concerned is touched, which is what lets a
fetched entry be linked again by the routines that move entries around.
-/

namespace LibHL
namespace LinkedList

variable {V : Type}

/-! ## The two shapes of relinking -/

/-- The cells after `a`, holding `cell`, was linked between the neighbours of
position `k`. -/
def cellsLinked (es : Heap (ListEntry V)) (ps : List Addr) (k : ℕ) (a : Addr)
    (cell : ListEntry V) (b : Addr) : Option (ListEntry V) :=
  if b = a then
    some cell
  else
    (es b).map fun e =>
      { e with
        prev := if ps[k]? = some b then some a else e.prev
        next := if before ps k = some b then some a else e.next }

/-- The cells after the neighbours of position `k` were linked to each other
and the entry `a` of that position was detached. -/
def cellsUnlinked (es : Heap (ListEntry V)) (ps : List Addr) (k : ℕ) (a : Addr)
    (v : Option V) (b : Addr) : Option (ListEntry V) :=
  if b = a then
    some { list := false, prev := none, next := none, value := v }
  else
    (es b).map fun e =>
      { e with
        prev := if ps[k + 1]? = some b then before ps k else e.prev
        next := if before ps k = some b then ps[k + 1]? else e.next }

theorem before_mem {ps : List Addr} {k : ℕ} {b : Addr}
    (h : before ps k = some b) : b ∈ ps := by
  unfold before at h
  split at h
  · cases h
  · exact List.mem_of_getElem? h

/-- Entries outside the chain keep their cells when one is linked. -/
theorem cellsLinked_of_not_mem {es : Heap (ListEntry V)} {ps : List Addr}
    {k : ℕ} {a b : Addr} {cell : ListEntry V} (hb : b ∉ ps) (hne : b ≠ a) :
    cellsLinked es ps k a cell b = es b := by
  have hnext : ¬ ps[k]? = some b := fun h => hb (List.mem_of_getElem? h)
  have hprev : ¬ before ps k = some b := fun h => hb (before_mem h)
  simp [cellsLinked, hne, hnext, hprev]

namespace Represents

variable {l l' : LinkedList V} {ps : List Addr} {xs : List (Option V)}
  {a : Addr} {v : Option V} {k : ℕ}

/-- Linking an entry at position `k` inserts its value there. -/
theorem insertIdx (h : Represents l ps xs) (hk : k ≤ ps.length) (ha : a ∉ ps)
    {owner : Bool}
    (hes : ∀ b, l'.entries b = cellsLinked l.entries ps k a
      { list := owner, prev := before ps k, next := ps[k]?, value := v } b)
    (hhead : l'.head = if k = 0 then some a else l.head)
    (htail : l'.tail = if k = ps.length then some a else l.tail)
    (hlength : l'.length = l.length + 1)
    (hcursor : ∀ b, l'.cur = some b →
      (ps.insertIdx k a)[l'.pos]? = some b) :
    Represents l' (ps.insertIdx k a) (xs.insertIdx k v) where
  linked := by
    apply h.linked.insertIdx hk ha
    · simp [links, hes, cellsLinked]
    · intro b hb
      have hba : b ≠ a := fun heq => ha (heq ▸ hb)
      simp only [links, hes, cellsLinked, hba, if_false, Option.map_map]
      rfl
  values := by
    have hself : valueAt l'.entries a = some v := by
      simp [valueAt, hes, cellsLinked]
    rw [List.map_insertIdx, hself, List.map_insertIdx, ← h.values]
    congr 1
    apply List.map_congr_left
    intro b hb
    have hba : b ≠ a := fun heq => ha (heq ▸ hb)
    simp only [valueAt, hes, cellsLinked, hba, if_false, Option.map_map]
    rfl
  head := by
    rw [hhead, h.head]
    by_cases hk0 : k = 0
    · subst k
      simp
    · rw [if_neg hk0, List.getElem?_insertIdx_of_lt (by omega)]
  tail := by
    have hlen : (ps.insertIdx k a).length = ps.length + 1 :=
      List.length_insertIdx_of_le_length hk a
    rw [htail, hlen, before_succ]
    by_cases hkl : k = ps.length
    · subst k
      simp
    · rw [if_neg hkl, h.tail, List.getElem?_insertIdx_of_gt (by omega), before,
        if_neg (by omega)]
  length := by
    rw [hlength, h.length, List.length_insertIdx_of_le_length hk a]
  cursor := hcursor

/-- Unlinking the entry at position `k` removes its value. -/
theorem eraseIdx (h : Represents l ps xs) (ha : ps[k]? = some a)
    (hes : ∀ b, l'.entries b = cellsUnlinked l.entries ps k a v b)
    (hhead : l'.head = if k = 0 then ps[1]? else l.head)
    (htail : l'.tail = if k + 1 = ps.length then before ps k else l.tail)
    (hlength : l'.length = l.length - 1)
    (hcursor : ∀ b, l'.cur = some b → (ps.eraseIdx k)[l'.pos]? = some b) :
    Represents l' (ps.eraseIdx k) (xs.eraseIdx k) where
  linked := by
    apply h.linked.eraseIdx
    intro b hb hne
    have hba : b ≠ a := fun heq => hne (heq ▸ ha)
    simp only [links, hes, cellsUnlinked, hba, if_false, Option.map_map]
    rfl
  values := by
    rw [← List.eraseIdx_map, ← List.eraseIdx_map, ← h.values]
    apply List.ext_getElem?
    intro i
    simp only [List.getElem?_eraseIdx, List.getElem?_map]
    have hkeep : ∀ j b, ps[j]? = some b → j ≠ k →
        valueAt l'.entries b = valueAt l.entries b := by
      intro j b hj hjk
      have hba : b ≠ a := by
        intro heq
        subst heq
        exact hjk (index_unique h.linked.nodup hj ha)
      simp only [valueAt, hes, cellsUnlinked, hba, if_false, Option.map_map]
      rfl
    split
    case isTrue hik =>
      cases hj : ps[i]? with
      | none => rfl
      | some b => simp [hkeep i b hj (by omega)]
    case isFalse hik =>
      cases hj : ps[i + 1]? with
      | none => rfl
      | some b => simp [hkeep (i + 1) b hj (by omega)]
  head := by
    rw [hhead, h.head, List.getElem?_eraseIdx]
    by_cases hk0 : k = 0
    · simp [hk0]
    · simp [hk0, Nat.pos_of_ne_zero hk0]
  tail := by
    have hk : k < ps.length := (List.getElem?_eq_some_iff.mp ha).1
    rw [htail, List.length_eraseIdx_of_lt hk, h.tail]
    simp only [before, List.getElem?_eraseIdx]
    grind
  length := by
    have hk : k < ps.length := (List.getElem?_eq_some_iff.mp ha).1
    rw [hlength, h.length, List.length_eraseIdx_of_lt hk]
  cursor := hcursor

/-! ## Linking -/

/-- The last entry of a non-empty chain. -/
theorem tail_entry (h : Represents l ps xs) (hne : ps.length ≠ 0) :
    ∃ p e, l.tail = some p ∧ ps[ps.length - 1]? = some p ∧
      l.entries p = some e ∧ e.prev = before ps (ps.length - 1) ∧
      e.next = none ∧ xs[ps.length - 1]? = some e.value := by
  obtain ⟨p, e, hp, he, hprev, hnext, hval⟩ :=
    h.entry_of_lt (show ps.length - 1 < ps.length by omega)
  refine ⟨p, e, ?_, hp, he, hprev, ?_, hval⟩
  · rw [h.tail, before, if_neg hne, hp]
  · rw [hnext, List.getElem?_eq_none (by omega)]

/-- The first entry of a non-empty chain. -/
theorem head_entry (h : Represents l ps xs) (hne : ps.length ≠ 0) :
    ∃ p e, l.head = some p ∧ ps[0]? = some p ∧ l.entries p = some e ∧
      e.prev = none ∧ e.next = ps[1]? ∧ xs[0]? = some e.value := by
  obtain ⟨p, e, hp, he, hprev, hnext, hval⟩ :=
    h.entry_of_lt (Nat.pos_of_ne_zero hne)
  exact ⟨p, e, h.head.trans hp, hp, he, hprev, hnext, hval⟩

theorem put_eq_cellsLinked {es : Heap (ListEntry V)} {a : Addr} {old e : ListEntry V}
    (ha : es a = some old) (b : Addr) : es.put a e b = cellsLinked es [] 0 a e b := by
  by_cases hba : b = a
  · simp [Heap.put_apply, cellsLinked, hba, ha]
  · simp [Heap.put_apply, cellsLinked, hba]

theorem pushEntry_eq (h : Represents l ps xs) (hl : Loose l.entries a v)
    (ha : a ∉ ps) :
    ∃ l', l.pushEntry (some a) = some (l', 0) ∧
      Represents l' (ps.insertIdx ps.length a) (xs.insertIdx ps.length v) ∧
      ∀ b, b ∉ ps → b ≠ a → l'.entries b = l.entries b := by
  unfold Loose at hl
  by_cases hne : ps.length = 0
  · have hps : ps = [] := List.eq_nil_of_length_eq_zero hne
    subst ps
    have hlen : l.length = 0 := h.length
    let es := l.entries.put a { list := true, prev := none, next := none, value := v }
    have hes : ∀ b, es b = _ := put_eq_cellsLinked hl
    refine ⟨{ l with entries := es, head := some a, tail := some a, length := 1 },
      ?_, ?_, ?_⟩
    · simp [pushEntry, hlen, Heap.modify, hl, es]
    · apply h.insertIdx (Nat.le_refl _) ha hes
      · simp
      · simp
      · simp [hlen]
      · intro b hb
        simpa using h.cursor b hb
    · intro b hb hba
      exact Heap.put_of_ne hba
  · obtain ⟨p, e, htail, hp, he, -, hnext, -⟩ := h.tail_entry hne
    have hap : a ≠ p := fun heq => ha (heq ▸ List.mem_of_getElem? hp)
    have hlen : l.length ≠ 0 := by rwa [h.length]
    have hbefore : before ps ps.length = some p := h.tail.symm.trans htail
    let es := ((l.entries.put p { e with next := some a }).put a
      { list := false, prev := some p, next := none, value := v }).put a
      { list := true, prev := some p, next := none, value := v }
    have hes : ∀ b, es b = cellsLinked l.entries ps ps.length a
        { list := true, prev := before ps ps.length, next := ps[ps.length]?,
          value := v } b := by
      intro b
      by_cases hba : b = a
      · simp [es, Heap.put_apply, cellsLinked, hba, hap, hl, hbefore]
      · by_cases hbp : b = p
        · simp [es, Heap.put_apply, cellsLinked, hbp, hap.symm, he, hbefore]
        · simp [es, Heap.put_apply, cellsLinked, hba, hbp, hbefore, Ne.symm hbp]
    refine ⟨{ l with entries := es, tail := some a, length := l.length + 1 },
      ?_, ?_, ?_⟩
    · simp [pushEntry, hlen, htail, Heap.modify, he, hl, hap, Heap.put_apply, es]
    · apply h.insertIdx (Nat.le_refl _) ha hes
      · simp [hne]
      · simp
      · simp
      · intro b hb
        have hcur := h.cursor b hb
        have hlt : l.pos < ps.length := (List.getElem?_eq_some_iff.mp hcur).1
        rw [List.getElem?_insertIdx_of_lt hlt]
        exact hcur
    · intro b hb hba
      exact (hes b).trans (cellsLinked_of_not_mem hb hba)

/-- `unshift_entry` links a loose entry at the beginning. -/
theorem unshiftEntry_eq (h : Represents l ps xs) (hl : Loose l.entries a v)
    (ha : a ∉ ps) :
    ∃ l', l.unshiftEntry (some a) = some (l', 0) ∧
      Represents l' (ps.insertIdx 0 a) (xs.insertIdx 0 v) ∧
      ∀ b, b ∉ ps → b ≠ a → l'.entries b = l.entries b := by
  unfold Loose at hl
  have hcursor : ∀ b, l.cur = some b →
      (ps.insertIdx 0 a)[if l.cur.isSome then l.pos + 1 else l.pos]? = some b := by
    intro b hb
    simpa [hb] using h.cursor b hb
  by_cases hne : ps.length = 0
  · have hps : ps = [] := List.eq_nil_of_length_eq_zero hne
    subst ps
    have hlen : l.length = 0 := h.length
    let es := l.entries.put a { list := true, prev := none, next := none, value := v }
    have hes : ∀ b, es b = _ := put_eq_cellsLinked hl
    refine ⟨{ l with
      entries := es, head := some a, tail := some a, length := 1
      pos := if l.cur.isSome then l.pos + 1 else l.pos }, ?_, ?_, ?_⟩
    · simp [unshiftEntry, hlen, Heap.modify, hl, es]
    · apply h.insertIdx (Nat.le_refl _) ha hes
      · simp
      · simp
      · simp [hlen]
      · exact hcursor
    · intro b hb hba
      exact Heap.put_of_ne hba
  · obtain ⟨p, e, hhead, hp, he, -, -, -⟩ := h.head_entry hne
    have hap : a ≠ p := fun heq => ha (heq ▸ List.mem_of_getElem? hp)
    have hlen : l.length ≠ 0 := by rwa [h.length]
    let es := ((l.entries.put p { e with prev := some a }).put a
      { list := false, prev := none, next := some p, value := v }).put a
      { list := true, prev := none, next := some p, value := v }
    have hes : ∀ b, es b = cellsLinked l.entries ps 0 a
        { list := true, prev := before ps 0, next := ps[0]?, value := v } b := by
      intro b
      by_cases hba : b = a
      · simp [es, Heap.put_apply, cellsLinked, hba, hap, hl, hp]
      · by_cases hbp : b = p
        · simp [es, Heap.put_apply, cellsLinked, hbp, hap.symm, he, hp]
        · simp [es, Heap.put_apply, cellsLinked, hba, hbp, hp, Ne.symm hbp]
    refine ⟨{ l with
      entries := es, head := some a, length := l.length + 1
      pos := if l.cur.isSome then l.pos + 1 else l.pos }, ?_, ?_, ?_⟩
    · simp [unshiftEntry, hlen, hhead, Heap.modify, he, hl, hap, Heap.put_apply, es]
    · apply h.insertIdx (Nat.zero_le _) ha hes
      · simp
      · simp [Ne.symm hne]
      · simp
      · exact hcursor
    · intro b hb hba
      exact (hes b).trans (cellsLinked_of_not_mem hb hba)

theorem modify_pointed (es : Heap (ListEntry V)) (q : Option Addr)
    (f : ListEntry V → ListEntry V) (hq : ∀ b, q = some b → (es b).isSome) :
    ∃ es', (match q with | none => some es | some c => es.modify c f) = some es' ∧
      ∀ b, es' b = (es b).map fun e => if q = some b then f e else e := by
  cases q with
  | none => exact ⟨es, rfl, by simp⟩
  | some c =>
      obtain ⟨e, he⟩ := Option.isSome_iff_exists.mp (hq c rfl)
      refine ⟨_, Heap.modify_eq_some _ he, ?_⟩
      intro b
      by_cases hbc : b = c
      · simp [Heap.put_apply, hbc, he]
      · simp [Heap.put_apply, hbc, Ne.symm hbc]

theorem setNext_eq (es : Heap (ListEntry V)) (q n : Option Addr)
    (hq : ∀ b, q = some b → (es b).isSome) :
    ∃ es', setNext es q n = some es' ∧ ∀ b, es' b =
      (es b).map fun e => { e with next := if q = some b then n else e.next } := by
  obtain ⟨es', hset, hes⟩ := modify_pointed es q (fun e => { e with next := n }) hq
  refine ⟨es', hset, fun b => ?_⟩
  rw [hes]
  split <;> rfl

theorem setPrev_eq (es : Heap (ListEntry V)) (q n : Option Addr)
    (hq : ∀ b, q = some b → (es b).isSome) :
    ∃ es', setPrev es q n = some es' ∧ ∀ b, es' b =
      (es b).map fun e => { e with prev := if q = some b then n else e.prev } := by
  obtain ⟨es', hset, hes⟩ := modify_pointed es q (fun e => { e with prev := n }) hq
  refine ⟨es', hset, fun b => ?_⟩
  rw [hes]
  split <;> rfl

theorem isSome_of_mem (h : Represents l ps xs) {b : Addr} (hb : b ∈ ps) :
    (l.entries b).isSome := by
  obtain ⟨i, hi⟩ := List.mem_iff_getElem?.mp hb
  obtain ⟨e, he, -⟩ := h.entry_at hi
  simp [he]

/-- The entry is linked behind the one that `pick_entry` finds. -/
theorem insertAfterPicked_run (h : Represents l ps xs) (hl : Loose l.entries a v)
    (ha : a ∉ ps) {l₁ : LinkedList V} {p : Addr} {pos q : ℕ} (hpos : pos ≠ 0)
    (hp : ps[q]? = some p) (hpick : l.pickEntry (pos - 1) = some (l₁, some p))
    (hes₁ : l₁.entries = l.entries) :
    ∃ es, l.insertAfterPicked (some a) pos =
        some ({ l₁ with entries := es, length := l₁.length + 1 }, 0) ∧
      ∀ b, es b = cellsLinked l.entries ps (q + 1) a
        { list := false, prev := some p, next := ps[q + 1]?, value := v } b := by
  unfold Loose at hl
  obtain ⟨e, he, -, hnext, -⟩ := h.entry_at hp
  have hap : a ≠ p := fun heq => ha (heq ▸ List.mem_of_getElem? hp)
  let es₂ := (l.entries.put p { e with next := some a }).put a
    { list := false, prev := some p, next := ps[q + 1]?, value := v }
  obtain ⟨es, hset, hes⟩ := setPrev_eq es₂ ps[q + 1]? (some a) fun b hb => by
    have hmem : b ∈ ps := List.mem_of_getElem? hb
    have hba : b ≠ a := fun heq => ha (heq ▸ hmem)
    by_cases hbp : b = p
    · simp [es₂, Heap.put_apply, hbp, hap.symm, he]
    · simp [es₂, Heap.put_apply, hba, hbp, h.isSome_of_mem hmem]
  refine ⟨es, ?_, ?_⟩
  · simp only [es₂] at hset
    simp [insertAfterPicked, hpos, hpick, hes₁, he, hnext, Heap.modify, Heap.put_apply, hap, hl,
      hset]
  · intro b
    rw [hes]
    by_cases hba : b = a
    · have hna : ¬ ps[q + 1]? = some a := fun hn => ha (List.mem_of_getElem? hn)
      simp [es₂, Heap.put_apply, cellsLinked, hba, hap, hl, hna]
    · by_cases hbp : b = p
      · simp [es₂, Heap.put_apply, cellsLinked, hbp, hap.symm, he, hp]
      · simp [es₂, Heap.put_apply, cellsLinked, hba, hbp, hp, Ne.symm hbp]

/-- The middle case of `insert_entry` links a loose entry at an inner position. -/
theorem insertAfterPicked_of_finds (h : Represents l ps xs) (hl : Loose l.entries a v)
    (ha : a ∉ ps) {pos : ℕ} (hpos : pos ≠ 0) (hlt : pos < ps.length)
    (hfinds : l.Finds (pos - 1)) :
    ∃ l', l.insertAfterPicked (some a) pos = some (l', 0) ∧
      Represents l' (ps.insertIdx pos a) (xs.insertIdx pos v) ∧
      ∀ b, b ∉ ps → b ≠ a → l'.entries b = l.entries b := by
  have hp : ps[pos - 1]? = some ps[pos - 1] := List.getElem?_eq_getElem (by omega)
  have hpick := h.pickEntry_of_finds hp hfinds
  obtain ⟨es, hrun, hes⟩ := h.insertAfterPicked_run hl ha hpos hp hpick rfl
  have hidx : pos - 1 + 1 = pos := by omega
  have hbefore : before ps pos = some ps[pos - 1] := by rw [before, if_neg hpos, hp]
  rw [hidx, ← hbefore] at hes
  refine ⟨_, hrun, ?_, ?_⟩
  · apply h.insertIdx (Nat.le_of_lt hlt) ha hes
    · simp [hpos]
    · simp [Nat.ne_of_lt hlt]
    · simp
    · intro b hb
      cases hb
      rw [List.getElem?_insertIdx_of_lt (show pos - 1 < pos by omega)]
      exact hp
  · intro b hb hba
    exact (hes b).trans (cellsLinked_of_not_mem hb hba)

/-! ## Unlinking -/

/-- The three writes by which every unlinking routine takes the entry at
position `k` out of the chain. -/
theorem unlink_cells (h : Represents l ps xs) (k : ℕ) {e : ListEntry V}
    (he : l.entries a = some e) :
    ∃ es₁ es₂ es₃, setNext l.entries (before ps k) ps[k + 1]? = some es₁ ∧
      setPrev es₁ ps[k + 1]? (before ps k) = some es₂ ∧
      detach es₂ a = some es₃ ∧
      ∀ b, es₃ b = cellsUnlinked l.entries ps k a e.value b := by
  obtain ⟨es₁, hset₁, hes₁⟩ := setNext_eq l.entries (before ps k) ps[k + 1]?
    fun b hb => h.isSome_of_mem (before_mem hb)
  obtain ⟨es₂, hset₂, hes₂⟩ := setPrev_eq es₁ ps[k + 1]? (before ps k)
    fun b hb => by simp [hes₁, h.isSome_of_mem (List.mem_of_getElem? hb)]
  have hlive : (es₂ a).isSome := by simp [hes₂, hes₁, he]
  obtain ⟨e₂, he₂⟩ := Option.isSome_iff_exists.mp hlive
  refine ⟨es₁, es₂, _, hset₁, hset₂, Heap.modify_eq_some _ he₂, ?_⟩
  have hval : e₂.value = e.value := by
    simp only [hes₂, hes₁, he, Option.map_some, Option.some.injEq] at he₂
    rw [← he₂]
  intro b
  by_cases hba : b = a
  · simp [Heap.put_apply, cellsUnlinked, hba, he₂, hval]
  · simp only [Heap.put_apply, cellsUnlinked, hba, false_and, if_false, hes₂, hes₁,
      Option.map_map]
    rfl

/-- The position kept beside a surviving cursor after position `k` was taken
out of the chain. -/
theorem cursor_eraseIdx (h : Represents l ps xs) (ha : ps[k]? = some a)
    {b : Addr} (hb : l.cur = some b) (hba : b ≠ a) :
    (ps.eraseIdx k)[if k < l.pos then l.pos - 1 else l.pos]? = some b := by
  have hcur := h.cursor b hb
  have hne : l.pos ≠ k := by
    intro heq
    rw [heq, ha] at hcur
    exact hba (Option.some.inj hcur).symm
  rw [List.getElem?_eraseIdx]
  split
  case isTrue hlt =>
    rw [if_neg (by omega)]
    have hsub : l.pos - 1 + 1 = l.pos := by omega
    rw [hsub]
    exact hcur
  case isFalse hge =>
    rw [if_pos (by omega)]
    exact hcur

/-- What every unlinking routine leaves behind: position `k` is gone from the
list, and its entry is loose. -/
structure Unlinked (l : LinkedList V) (ps : List Addr) (xs : List (Option V))
    (k : ℕ) (l' : LinkedList V) (a : Addr) (v : Option V) : Prop where
  entry : ps[k]? = some a
  value : xs[k]? = some v
  represents : Represents l' (ps.eraseIdx k) (xs.eraseIdx k)
  loose : Loose l'.entries a v

theorem Unlinked.not_mem {a : Addr} (hu : Unlinked l ps xs k l' a v)
    (h : Represents l ps xs) : a ∉ ps.eraseIdx k := by
  intro hmem
  obtain ⟨i, hi⟩ := List.mem_iff_getElem?.mp hmem
  rw [List.getElem?_eraseIdx] at hi
  split at hi
  · have := index_unique h.linked.nodup hi hu.entry
    omega
  · have := index_unique h.linked.nodup hi hu.entry
    omega

theorem clearEndsIfEmpty_eq (h : Represents l ps xs) : l.clearEndsIfEmpty = l := by
  unfold clearEndsIfEmpty
  split
  case isTrue hlen =>
    rw [h.length] at hlen
    have hps : ps = [] := List.eq_nil_of_length_eq_zero hlen
    have hhead : l.head = none := by simp [h.head, hps]
    have htail : l.tail = none := by simp [h.tail, hps]
    cases l
    simp_all
  case isFalse => rfl

theorem popEntry_of_empty (h : Represents l [] xs) :
    l.popEntry = some (l, none) := by
  have htail : l.tail = none := h.tail
  simp [popEntry, htail, h.clearEndsIfEmpty_eq]

/-- `pop_entry` on a non-empty list takes the last entry. -/
theorem popEntry_eq (h : Represents l ps xs) (hne : ps.length ≠ 0) :
    ∃ l' a v, l.popEntry = some (l', some a) ∧
      Unlinked l ps xs (ps.length - 1) l' a v := by
  obtain ⟨a, e, htail, ha, he, hprev, hnext, hval⟩ := h.tail_entry hne
  obtain ⟨es₁, es₂, es₃, hset₁, hset₂, hset₃, hes⟩ :=
    h.unlink_cells (ps.length - 1) he
  have hsucc : ps.length - 1 + 1 = ps.length := by omega
  have hend : ps[ps.length]? = none := List.getElem?_eq_none (Nat.le_refl _)
  rw [hsucc, hend, ← hprev] at hset₁ hset₂
  cases hset₂
  let l' : LinkedList V :=
    { l with
      entries := es₃, tail := e.prev, length := l.length - 1
      head := if ps.length = 1 then none else l.head
      cur := if l.cur = some a then none else l.cur }
  have hrep : Represents l' (ps.eraseIdx (ps.length - 1))
      (xs.eraseIdx (ps.length - 1)) := by
    apply h.eraseIdx ha hes
    · by_cases hone : ps.length = 1
      · simp [l', hone]
      · have hpos : ps.length - 1 ≠ 0 := by omega
        simp [l', hone, hpos]
    · simp [l', hsucc, hprev]
    · rfl
    · intro b hb
      by_cases hcur : l.cur = some a
      · simp [l', hcur] at hb
      · simp only [l', hcur, if_false] at hb
        have hba : b ≠ a := fun heq => hcur (heq ▸ hb)
        have hpos := h.cursor b hb
        have hlt : l.pos < ps.length := (List.getElem?_eq_some_iff.mp hpos).1
        have := h.cursor_eraseIdx ha hb hba
        rwa [if_neg (by omega)] at this
  refine ⟨l', a, e.value, ?_, ha, hval, hrep, ?_⟩
  · have hprev_of_one : ps.length = 1 → e.prev = none := by
      intro hone
      rw [hprev, hone]
      rfl
    by_cases hone : ps.length = 1
    · rw [hprev_of_one hone] at hset₁
      simp [popEntry, htail, he, hset₁, hset₃, clearEndsIfEmpty, h.length, l', hone,
        hprev_of_one hone]
    · have hpos : ps.length - 1 ≠ 0 := by omega
      simp [popEntry, htail, he, hset₁, hset₃, clearEndsIfEmpty, h.length, l', hone,
        hpos]
  · simp [Loose, l', hes, cellsUnlinked]

theorem shiftEntry_of_empty (h : Represents l [] xs) :
    l.shiftEntry = some (l, none) := by
  have hhead : l.head = none := h.head
  simp [shiftEntry, hhead, h.clearEndsIfEmpty_eq]

theorem shiftEntry_eq (h : Represents l ps xs) (hne : ps.length ≠ 0) :
    ∃ l' a v, l.shiftEntry = some (l', some a) ∧ Unlinked l ps xs 0 l' a v := by
  obtain ⟨a, e, hhead, ha, he, -, hnext, hval⟩ := h.head_entry hne
  obtain ⟨es₁, es₂, es₃, hset₁, hset₂, hset₃, hes⟩ := h.unlink_cells 0 he
  rw [before_zero, Nat.zero_add, ← hnext] at hset₁ hset₂
  cases hset₁
  let l' : LinkedList V :=
    { l with
      entries := es₃, head := e.next, length := l.length - 1
      tail := if ps.length = 1 then none else l.tail
      cur := if l.cur = some a then none else l.cur
      pos := if l.cur = some a then l.pos else l.pos - 1 }
  have hrep : Represents l' (ps.eraseIdx 0) (xs.eraseIdx 0) := by
    apply h.eraseIdx ha hes
    · simp [l', hnext]
    · by_cases hone : ps.length = 1
      · simp [l', hone]
      · simp [l', hone, Ne.symm hone]
    · rfl
    · intro b hb
      by_cases hcur : l.cur = some a
      · simp [l', hcur] at hb
      · simp only [l', hcur, if_false] at hb ⊢
        have hba : b ≠ a := fun heq => hcur (heq ▸ hb)
        have := h.cursor_eraseIdx ha hb hba
        by_cases hpos : 0 < l.pos
        · rwa [if_pos hpos] at this
        · rw [if_neg hpos] at this
          have hzero : l.pos = 0 := by omega
          rw [hzero] at this ⊢
          exact this
  refine ⟨l', a, e.value, ?_, ha, hval, hrep, ?_⟩
  · by_cases hone : ps.length = 1
    · have hnone : e.next = none := by
        rw [hnext, List.getElem?_eq_none (by omega)]
      simp only [hnone] at hset₂
      simp [shiftEntry, hhead, he, hnone, hset₂, hset₃, clearEndsIfEmpty, h.length,
        l', hone]
    · have hpos : ps.length - 1 ≠ 0 := by omega
      simp [shiftEntry, hhead, he, hset₂, hset₃, clearEndsIfEmpty, h.length, l',
        hone, hpos]
  · simp [Loose, l', hes, cellsUnlinked]

/-- `remove_entry` takes the entry at an inner position. -/
theorem removeEntry_eq (h : Represents l ps xs) (hlen : ps.length < 2 ^ 31)
    {pos : ℕ} (hpos : pos ≠ 0) (hlt : pos + 1 < ps.length) :
    ∃ l' a v, l.removeEntry pos = some (l', some a) ∧
      Unlinked l ps xs pos l' a v := by
  obtain ⟨a, e, ha, he, hprev, hnext, hval⟩ :=
    h.entry_of_lt (show pos < ps.length by omega)
  obtain ⟨es₁, es₂, es₃, hset₁, hset₂, hset₃, hes⟩ := h.unlink_cells pos he
  rw [← hprev, ← hnext] at hset₁ hset₂
  have hnotLast : pos ≠ l.length - 1 := by
    rw [h.length]
    omega
  let l' : LinkedList V :=
    { l with entries := es₃, length := l.length - 1, cur := none, pos := 0 }
  have hrep : Represents l' (ps.eraseIdx pos) (xs.eraseIdx pos) := by
    apply h.eraseIdx ha hes
    · simp [l', hpos]
    · simp [l', Nat.ne_of_lt hlt]
    · rfl
    · intro b hb
      cases hb
  refine ⟨l', a, e.value, ?_, ha, hval, hrep, ?_⟩
  · simp [removeEntry, h.pickEntry_of_lt hlen ha, he, hset₁, hset₂, hset₃, hpos,
      hnotLast, l']
  · simp [Loose, l', hes, cellsUnlinked]

theorem removeEntry_of_ge (h : Represents l ps xs) {pos : ℕ}
    (hpos : ps.length ≤ pos) : l.removeEntry pos = some (l, none) := by
  simp [removeEntry, h.pickEntry_of_ge hpos]

/-! ## Fetching and inserting at any position -/

/-- `fetch_entry` takes the entry at any position of the list. -/
theorem fetchEntry_eq (h : Represents l ps xs) (hlen : ps.length < 2 ^ 31)
    {pos : ℕ} (hpos : pos < ps.length) :
    ∃ l' a v, l.fetchEntry pos = some (l', some a) ∧
      Unlinked l ps xs pos l' a v := by
  have hne : ps.length ≠ 0 := by omega
  unfold fetchEntry
  by_cases hp0 : pos = 0
  · subst pos
    rw [if_pos rfl]
    exact h.shiftEntry_eq hne
  · rw [if_neg hp0, h.length, if_neg hne]
    by_cases hlast : pos = ps.length - 1
    · rw [if_pos hlast, hlast]
      exact h.popEntry_eq hne
    · rw [if_neg hlast]
      exact h.removeEntry_eq hlen hp0 (by omega)

theorem fetchEntry_of_ge (h : Represents l ps xs) {pos : ℕ}
    (hpos : ps.length ≤ pos) : l.fetchEntry pos = some (l, none) := by
  unfold fetchEntry
  by_cases hp0 : pos = 0
  · have hps : ps = [] := List.eq_nil_of_length_eq_zero (by omega)
    subst ps
    rw [if_pos hp0]
    exact h.shiftEntry_of_empty
  · rw [if_neg hp0, h.length]
    by_cases hlast : pos = if ps.length = 0 then 2 ^ 64 - 1 else ps.length - 1
    · have hne : ps.length = 0 := by
        by_contra hne
        rw [if_neg hne] at hlast
        omega
      have hps : ps = [] := List.eq_nil_of_length_eq_zero hne
      subst ps
      rw [if_pos hlast]
      exact h.popEntry_of_empty
    · rw [if_neg hlast]
      exact h.removeEntry_of_ge hpos

/-- A freshly created entry is loose and not part of the chain. -/
theorem createEntry_eq (h : Represents l ps xs) :
    Represents l.createEntry.1 ps xs ∧
      Loose l.createEntry.1.entries l.createEntry.2 none ∧
      l.createEntry.2 ∉ ps ∧
      ∀ b, (l.entries b).isSome → b ≠ l.createEntry.2 ∧
        l.createEntry.1.entries b = l.entries b := by
  have hbrk : ∀ b, (l.entries b).isSome → b ≠ l.entries.brk := by
    intro b hb heq
    rw [heq, Heap.brk_apply] at hb
    cases hb
  refine ⟨?_, ?_, ?_, ?_⟩
  · apply h.of_entries
    intro b hb
    exact if_neg (hbrk b (h.isSome_of_mem hb))
  · simp [Loose, createEntry, Heap.alloc_apply]
  · intro hmem
    exact hbrk _ (h.isSome_of_mem hmem) rfl
  · intro b hb
    exact ⟨hbrk b hb, if_neg (hbrk b hb)⟩

theorem setEntryValue_of_loose (h : Represents l ps xs) (hl : Loose l.entries a v) (ha : a ∉ ps)
    (val : Option V) :
    ∃ es, l.setEntryValue a val = some { l with entries := es } ∧
      Represents { l with entries := es } ps xs ∧ Loose es a val := by
  unfold Loose at hl
  refine ⟨_, ?_, ?_, Heap.put_self hl⟩
  · simp [setEntryValue, Heap.modify, hl]
  · apply h.of_entries
    intro b hb
    exact Heap.put_of_ne fun heq => ha (heq ▸ hb)

/-- The padding loop appends null values and touches no other entry. -/
theorem padEntries_eq :
    ∀ (n : ℕ) {l : LinkedList V} {ps : List Addr} {xs : List (Option V)},
      Represents l ps xs → ∃ l' ps', padEntries n l = some l' ∧
        Represents l' ps' (xs ++ List.replicate n none) ∧
        ∀ b, b ∉ ps → (l.entries b).isSome →
          b ∉ ps' ∧ l'.entries b = l.entries b := by
  intro n
  induction n with
  | zero =>
      intro l ps xs h
      exact ⟨l, ps, rfl, by simpa using h, fun b hb _ => ⟨hb, rfl⟩⟩
  | succ n ih =>
      intro l ps xs h
      obtain ⟨hrep, hloose, hnew, hkeep⟩ := h.createEntry_eq
      obtain ⟨l₁, hpush, hrep₁, hkeep₁⟩ := hrep.pushEntry_eq hloose hnew
      obtain ⟨l₂, ps₂, hpad, hrep₂, hkeep₂⟩ := ih hrep₁
      refine ⟨l₂, ps₂, ?_, ?_, ?_⟩
      · simp [padEntries, hpush, hpad]
      · have hval : xs.insertIdx ps.length none ++ List.replicate n none =
            xs ++ List.replicate (n + 1) none := by
          rw [← h.length_eq, List.insertIdx_length_self, List.append_assoc,
            List.replicate_succ]
          rfl
        rwa [hval] at hrep₂
      · intro b hb hlive
        obtain ⟨hbne, hbe⟩ := hkeep b hlive
        have hb₁ : l₁.entries b = l.entries b := (hkeep₁ b hb hbne).trans hbe
        have hnot : b ∉ ps.insertIdx ps.length l.createEntry.2 := by
          rw [List.mem_insertIdx (Nat.le_refl _)]
          simp [hb, hbne]
        obtain ⟨hnot₂, hb₂⟩ := hkeep₂ b hnot (by rw [hb₁]; exact hlive)
        exact ⟨hnot₂, hb₂.trans hb₁⟩

end Represents

/-- Insertion into a plain list; past the end it pads with null values. -/
def insertPadded (xs : List (Option V)) (pos : ℕ) (v : Option V) :
    List (Option V) :=
  (xs ++ List.replicate (pos - xs.length) none).insertIdx pos v

theorem insertPadded_of_le {xs : List (Option V)} {pos : ℕ} {v : Option V}
    (h : pos ≤ xs.length) : insertPadded xs pos v = xs.insertIdx pos v := by
  have hsub : pos - xs.length = 0 := by omega
  simp [insertPadded, hsub]

namespace Represents

variable {l l' : LinkedList V} {ps : List Addr} {xs : List (Option V)}
  {a : Addr} {v : Option V} {k : ℕ}

/-- `insert_entry` links a loose entry at a position of the list. -/
theorem insertEntry_of_le (h : Represents l ps xs) (hl : Loose l.entries a v) (ha : a ∉ ps)
    {pos : ℕ} (hle : pos ≤ ps.length)
    (hfinds : 0 < pos → pos < ps.length → l.Finds (pos - 1)) :
    ∃ l' ps', l.insertEntry (some a) pos = some (l', 0) ∧
      Represents l' ps' (insertPadded xs pos v) := by
  by_cases hp0 : pos = 0
  · obtain ⟨l₁, hrun, hrep, -⟩ := h.unshiftEntry_eq hl ha
    refine ⟨l₁, ps.insertIdx 0 a, ?_, ?_⟩
    · simp [insertEntry, hp0, hrun]
    · rw [insertPadded_of_le (by omega), hp0]
      exact hrep
  by_cases hend : pos = ps.length
  · obtain ⟨l₁, hrun, hrep, -⟩ := h.pushEntry_eq hl ha
    refine ⟨l₁, ps.insertIdx ps.length a, ?_, ?_⟩
    · simp [insertEntry, h.length, hend, hrun, hend ▸ hp0]
    · rw [insertPadded_of_le (by rw [h.length_eq]; omega), hend]
      exact hrep
  · have hpast : ¬ ps.length < pos := Nat.not_lt.mpr hle
    obtain ⟨l₁, hrun, hrep, -⟩ := h.insertAfterPicked_of_finds hl ha hp0 (by omega)
      (hfinds (by omega) (by omega))
    refine ⟨l₁, ps.insertIdx pos a, ?_, ?_⟩
    · simp [insertEntry, hp0, h.length, hend, hpast, hrun]
    · rw [insertPadded_of_le (by rw [h.length_eq]; omega)]
      exact hrep

/-- A loose entry is linked behind the padding. -/
theorem pushEntry_of_padded {l₁ : LinkedList V} {pos : ℕ} (h : Represents l ps xs)
    (hl : Loose l.entries a v) (ha : a ∉ ps) (hpast : ps.length < pos)
    (hpad : padEntries (pos - ps.length) l = some l₁) :
    ∃ l' ps', l₁.pushEntry (some a) = some (l', 0) ∧
      Represents l' ps' (insertPadded xs pos v) := by
  obtain ⟨l₂, ps₁, hpad₂, hrep₁, hkeep⟩ := padEntries_eq (pos - ps.length) h
  cases hpad.symm.trans hpad₂
  obtain ⟨hnot, hcell⟩ := hkeep a ha (by simp [show l.entries a = _ from hl])
  have hl₁ : Loose l₁.entries a v := hcell.trans hl
  obtain ⟨l₂, hpush, hrep₂, -⟩ := hrep₁.pushEntry_eq hl₁ hnot
  refine ⟨l₂, ps₁.insertIdx ps₁.length a, hpush, ?_⟩
  have hlen₁ : ps₁.length = pos := by
    rw [← hrep₁.length_eq, List.length_append, List.length_replicate, h.length_eq]
    omega
  rw [hlen₁, ← h.length_eq] at hrep₂
  rw [hlen₁]
  exact hrep₂

/-- `insert_entry` links a loose entry at any position, padding the list when
the position is past its end. -/
theorem insertEntry_eq (h : Represents l ps xs) (hl : Loose l.entries a v)
    (ha : a ∉ ps) (hlen : ps.length < 2 ^ 31) (pos : ℕ) :
    ∃ l' ps', l.insertEntry (some a) pos = some (l', 0) ∧
      Represents l' ps' (insertPadded xs pos v) := by
  by_cases hpast : ps.length < pos
  · obtain ⟨l₁, ps₁, hpad, -⟩ := padEntries_eq (pos - ps.length) h
    obtain ⟨l₂, ps₂, hpush, hrep⟩ := h.pushEntry_of_padded hl ha hpast hpad
    refine ⟨l₂, ps₂, ?_, hrep⟩
    simp [insertEntry, Nat.ne_of_gt (Nat.zero_lt_of_lt hpast), h.length, hpast.ne', hpast,
      cUInt_of_lt hlen, hpad, hpush]
  · exact h.insertEntry_of_le hl ha (Nat.not_lt.mp hpast) fun _ _ =>
      h.finds (by omega) (by omega)

/-- If the walk of `pick_entry` misses the position, the cursor and the entry are left at
another one. -/
theorem not_represents_of_not_finds (h : Represents l ps xs) (hl : Loose l.entries a v)
    (ha : a ∉ ps) {pos : ℕ} {r : ℤ} (hpos : 0 < pos) (hlt : pos < ps.length)
    (hfinds : ¬ l.Finds (pos - 1)) (hrun : l.insertEntry (some a) pos = some (l', r)) :
    r = 0 ∧ ∀ ps' ys, ¬ Represents l' ps' ys := by
  have hafter : l.insertAfterPicked (some a) pos = some (l', r) := by
    simpa [insertEntry, hpos.ne', h.length, hlt.ne, hlt.not_gt] using hrun
  rcases h.seekEntry_cases (show pos - 1 < ps.length by omega) with
    ⟨hfinds', -⟩ | ⟨-, hseek | ⟨q, hq, hqlt, hseek⟩⟩
  · exact absurd hfinds' hfinds
  · have hnot : ¬ l.length ≤ pos - 1 := by
      rw [h.length]
      omega
    simp [insertAfterPicked, hpos.ne', pickEntry, hnot, hseek] at hafter
  · have hp : ps[q]? = some ps[q] := List.getElem?_eq_getElem hqlt
    have hpick : l.pickEntry (pos - 1) =
        some ({ l with pos := pos - 1, cur := some ps[q] }, some ps[q]) := by
      have hnot : ¬ l.length ≤ pos - 1 := by
        rw [h.length]
        omega
      simp [pickEntry, hnot, hseek, hp]
    obtain ⟨es, hrun', hes⟩ := h.insertAfterPicked_run hl ha hpos.ne' hp hpick rfl
    cases hafter.symm.trans hrun'
    refine ⟨rfl, fun ps' ys h' => ?_⟩
    have hcursor : ps'[pos - 1]? = some ps[q] := h'.cursor _ rfl
    have hsame : ps'[pos - 1]? = ps[pos - 1]? := by
      refine h.getElem?_eq_of_next h' rfl fun j hj b hb => ?_
      have hba : b ≠ a := fun heq => ha (heq ▸ List.mem_of_getElem? hb)
      have hnext : ¬ before ps (q + 1) = some b := by
        rw [before_succ]
        intro hqb
        have := index_unique h.linked.nodup hqb hb
        omega
      simp only [hes, cellsLinked, hba, if_false, hnext, Option.map_map]
      rfl
    have := index_unique h.linked.nodup (hsame.symm.trans hcursor) hp
    omega

/-- `destroy_entry` on a loose entry only releases its cell. -/
theorem destroyEntry_eq (h : Represents l ps xs) (hl : Loose l.entries a v)
    (ha : a ∉ ps) :
    ∃ l', l.destroyEntry a = some l' ∧ Represents l' ps xs := by
  unfold Loose at hl
  refine ⟨{ l with entries := l.entries.kill a }, ?_, ?_⟩
  · simp [destroyEntry, hl, Heap.free]
  · apply h.of_entries
    intro b hb
    have hba : b ≠ a := fun heq => ha (heq ▸ hb)
    simp [Heap.kill_apply, hba]

end Represents
end LinkedList
end LibHL
