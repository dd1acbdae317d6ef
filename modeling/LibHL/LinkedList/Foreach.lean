import LibHL.LinkedList.Refinement
import LibHL.Support.LiveCells

/-!
# Iterating over a list

The iterator hands the values to a handler, one after the other, and removes those for which
it asks for it.  A removal makes the slice shorter while the index has grown already, so
that the loop ends too early.
-/

namespace LibHL
namespace LinkedList

variable {V σ : Type}

/-! ## The iterator -/

/-- The variables of `slice_foreach_value`, with the handler's own state and a record of
its calls. -/
structure Iteration (V σ : Type) where
  list : LinkedList V
  sliceLength : ℕ
  idx : ℕ
  user : σ
  calls : List (Option V × ℤ)

/-- The neighbours of the current entry `d` are linked to each other, in one of four ways. -/
def relinkItem (l : LinkedList V) (d : Addr) (e : ListEntry V) : Option (LinkedList V) :=
  if l.head = l.tail ∧ l.tail = some d then
    some { l with head := none, tail := none }
  else if some d = l.head then do
    let next ← e.next
    let es ← l.entries.modify next fun f => { f with prev := none }
    some { l with entries := es, head := some next }
  else if some d = l.tail then do
    let prev ← e.prev
    let es ← l.entries.modify prev fun f => { f with next := none }
    some { l with entries := es, tail := some prev }
  else do
    let next ← e.next
    let es ← l.entries.modify next fun f => { f with prev := e.prev }
    let prev ← e.prev
    let es ← es.modify prev fun f => { f with next := some next }
    some { l with entries := es }

/-- The current entry `d` is unlinked, up to `list->length--`. -/
def unlinkItem (l : LinkedList V) (d : Addr) : Option (LinkedList V) := do
  let e ← l.entries d
  let l ← relinkItem l d e
  let es ← l.entries.modify d fun f => { f with list := false }
  some { l with
    entries := es
    cur := if l.cur = some d then none else l.cur
    length := l.length - 1 }

/-- The loop of `slice_foreach_value`. -/
def foreachLoop (item_handler : σ → Option V → ℕ → σ × ℤ) :
    ℕ → Iteration V σ → Option Addr → Option (Iteration V σ)
  | _, s, none => some s
  | 0, _, some _ => none
  | fuel + 1, s, some d =>
      if s.idx < s.sliceLength then do
        let e ← s.list.entries d
        let rc := item_handler s.user e.value s.idx
        let s := { s with
          idx := s.idx + 1
          user := rc.1
          calls := s.calls ++ [(e.value, rc.2)] }
        if rc.2 = 0 then
          some s
        else if rc.2 = -1 ∨ rc.2 = -2 then do
          let l ← unlinkItem s.list d
          let l ← l.destroyEntry d
          let s := { s with
            list := l
            sliceLength := s.sliceLength - 1 }
          if rc.2 = -2 then some s else foreachLoop item_handler fuel s e.next
        else
          foreachLoop item_handler fuel s e.next
      else
        some s

/-- `slice_foreach_value`: what it returns is an `int`. -/
def sliceForeachValue (l : LinkedList V) (offset length : ℕ)
    (item_handler : σ → Option V → ℕ → σ × ℤ) (user : σ) :
    Option (Iteration V σ × ℤ) := do
  let (l, e) ← l.pickEntry offset
  let s ← foreachLoop item_handler (l.entries.brk + 1)
    { list := l, sliceLength := length, idx := 0, user := user, calls := [] } e
  some (s, cInt s.idx)

/-- `list_foreach_value`: a slice of the whole list. -/
def listForeachValue (l : LinkedList V) (item_handler : σ → Option V → ℕ → σ × ℤ)
    (user : σ) : Option (Iteration V σ × ℤ) :=
  sliceForeachValue l 0 l.length item_handler user

/-! ## Removing the current item -/

variable {l l' : LinkedList V} {ps : List Addr} {xs : List (Option V)} {k : ℕ} {d : Addr}

/-- What becomes of the other entries when the one at position `k` is unlinked. -/
def relinked (ps : List Addr) (k : ℕ) (b : Addr) (e : ListEntry V) : ListEntry V :=
  { e with
    prev := if ps[k + 1]? = some b then before ps k else e.prev
    next := if before ps k = some b then ps[k + 1]? else e.next }

theorem relinked_eq (ps : List Addr) (k : ℕ) (b : Addr) :
    (relinked ps k b : ListEntry V → ListEntry V) = fun e => { e with
      prev := if ps[k + 1]? = some b then before ps k else e.prev
      next := if before ps k = some b then ps[k + 1]? else e.next } := rfl

theorem Represents.head_iff (h : Represents l ps xs) (hd : ps[k]? = some d) :
    some d = l.head ↔ k = 0 := by
  rw [h.head, eq_comm, getElem?_eq_some_iff_eq h.linked.nodup hd, eq_comm]

theorem Represents.tail_iff (h : Represents l ps xs) (hd : ps[k]? = some d) :
    some d = l.tail ↔ k + 1 = ps.length := by
  rw [h.tail, eq_comm, before_eq_some_iff_eq h.linked.nodup hd, eq_comm]

/-- The neighbours of an item are linked to each other, wherever it stands. -/
theorem Represents.relinkItem_eq (h : Represents l ps xs) (hd : ps[k]? = some d)
    {e : ListEntry V} (hprev : e.prev = before ps k) (hnext : e.next = ps[k + 1]?) :
    ∃ es, relinkItem l d e = some { l with
        entries := es
        head := if k = 0 then ps[1]? else l.head
        tail := if k + 1 = ps.length then before ps k else l.tail } ∧
      ∀ b, es b = (l.entries b).map (relinked ps k b) := by
  have hk : k < ps.length := (List.getElem?_eq_some_iff.mp hd).1
  have hhead := h.head_iff hd
  have htail := h.tail_iff hd
  by_cases hfirst : k = 0
  · subst hfirst
    have hd' : some d = l.head := hhead.mpr rfl
    by_cases hlast : 0 + 1 = ps.length
    · -- the only item
      have htail' : l.tail = some d := (htail.mpr hlast).symm
      have hnone : ps[0 + 1]? = none := List.getElem?_eq_none (le_of_eq hlast.symm)
      refine ⟨l.entries, ?_, ?_⟩
      · rw [relinkItem, if_pos ⟨hd'.symm.trans htail'.symm, htail'⟩, if_pos rfl, if_pos hlast,
          hnone]
        rfl
      · intro b
        simp [relinked_eq, hnone]
    · -- the first item of several
      obtain ⟨n, hn⟩ : ∃ n, ps[0 + 1]? = some n :=
        ⟨_, List.getElem?_eq_getElem (by omega)⟩
      obtain ⟨es, hset, hes⟩ := setPrev_eq l.entries (some n) none fun b hb => by
        cases hb
        exact h.isSome_of_mem (List.mem_of_getElem? hn)
      have hset' : l.entries.modify n (fun f => { f with prev := none }) = some es := hset
      refine ⟨es, ?_, ?_⟩
      · rw [relinkItem, if_neg fun hand => hlast (htail.mp hand.2.symm), if_pos hd', hnext, hn,
          if_pos rfl, if_neg hlast]
        simp only [Option.bind_eq_bind, Option.bind_some, hset']
      · intro b
        rw [hes, relinked_eq, hn]
        simp
  · obtain ⟨p, hp⟩ : ∃ p, before ps k = some p := by
      obtain ⟨i, rfl⟩ := Nat.exists_eq_succ_of_ne_zero hfirst
      exact ⟨_, List.getElem?_eq_getElem (Nat.lt_of_succ_lt hk)⟩
    have hp' : (l.entries p).isSome := h.isSome_of_mem (before_mem hp)
    have hnot : ¬ (l.head = l.tail ∧ l.tail = some d) := fun hand =>
      hfirst (hhead.mp (hand.1.trans hand.2).symm)
    by_cases hlast : k + 1 = ps.length
    · -- the last item of several
      have hnone : ps[k + 1]? = none := List.getElem?_eq_none (le_of_eq hlast.symm)
      obtain ⟨es, hset, hes⟩ := setNext_eq l.entries (some p) none fun b hb => by
        cases hb
        exact hp'
      have hset' : l.entries.modify p (fun f => { f with next := none }) = some es := hset
      refine ⟨es, ?_, ?_⟩
      · rw [relinkItem, if_neg hnot, if_neg fun heq => hfirst (hhead.mp heq),
          if_pos (htail.mpr hlast), hprev, hp, if_neg hfirst, if_pos hlast]
        simp only [Option.bind_eq_bind, Option.bind_some, hset']
      · intro b
        rw [hes, relinked_eq, hnone, hp]
        simp
    · -- an item between others
      obtain ⟨n, hn⟩ : ∃ n, ps[k + 1]? = some n :=
        ⟨_, List.getElem?_eq_getElem (by omega)⟩
      obtain ⟨es₁, hset₁, hes₁⟩ := setPrev_eq l.entries (some n) (some p) fun b hb => by
        cases hb
        exact h.isSome_of_mem (List.mem_of_getElem? hn)
      obtain ⟨es₂, hset₂, hes₂⟩ := setNext_eq es₁ (some p) (some n) fun b hb => by
        cases hb
        rw [hes₁, Option.isSome_map]
        exact hp'
      have hset₁' : l.entries.modify n (fun f => { f with prev := some p }) = some es₁ := hset₁
      have hset₂' : es₁.modify p (fun f => { f with next := some n }) = some es₂ := hset₂
      refine ⟨es₂, ?_, ?_⟩
      · rw [relinkItem, if_neg hnot, if_neg fun heq => hfirst (hhead.mp heq),
          if_neg fun heq => hlast (htail.mp heq), hprev, hnext, hp, hn, if_neg hfirst,
          if_neg hlast]
        simp only [Option.bind_eq_bind, Option.bind_some, hset₁', hset₂']
      · intro b
        rw [hes₂, hes₁, Option.map_map]
        rw [relinked_eq, hn, hp]
        rfl

/-- Removing an item: its entry is gone, and the cursor is cleared if it stood there. -/
theorem Represents.removeItem_eq (h : Represents l ps xs) (hd : ps[k]? = some d)
    (hcur : ∀ b, l.cur = some b → l.pos ≤ k) :
    ∃ l₁ l₂, unlinkItem l d = some l₁ ∧ l₁.destroyEntry d = some l₂ ∧
      Represents l₂ (ps.eraseIdx k) (xs.eraseIdx k) ∧
      (∀ b, l₂.cur = some b → l₂.pos < k) ∧
      ∀ b f, l₂.entries b = some f → ∃ e, l.entries b = some e ∧ f.list = e.list := by
  obtain ⟨e, he, hprev, hnext, -⟩ := h.entry_at hd
  obtain ⟨es, hrelink, hes⟩ := h.relinkItem_eq hd hprev hnext
  have hed : es d = some (relinked ps k d e) := by rw [hes, he, Option.map_some]
  let es₁ : Heap (ListEntry V) := es.put d { relinked ps k d e with list := false }
  have hmodify : es.modify d (fun f => { f with list := false }) = some es₁ :=
    Heap.modify_eq_some _ hed
  have hed₁ : es₁ d = some { relinked ps k d e with list := false } := Heap.put_self hed
  let l₁ : LinkedList V :=
    { l with
      entries := es₁
      head := if k = 0 then ps[1]? else l.head
      tail := if k + 1 = ps.length then before ps k else l.tail
      cur := if l.cur = some d then none else l.cur
      length := l.length - 1 }
  have hunlink : unlinkItem l d = some l₁ := by
    simp only [unlinkItem, he, hrelink, hmodify, Option.bind_eq_bind, Option.bind_some]
    rfl
  have hdestroy : l₁.destroyEntry d = some { l₁ with entries := es₁.kill d } := by
    have hed₁' : l₁.entries d = some { relinked ps k d e with list := false } := hed₁
    have hfree : l₁.entries.free d = some (es₁.kill d) := Heap.free_eq_some hed₁
    simp only [destroyEntry, hed₁', hfree, Option.bind_eq_bind, Option.bind_some,
      Bool.false_eq_true, if_false]
  have hother : ∀ b, b ≠ d → (es₁.kill d) b = (l.entries b).map (relinked ps k b) := by
    intro b hb
    rw [Heap.kill_apply, if_neg hb, ← hes]
    exact Heap.put_of_ne hb
  have hcur₂ : ∀ b, l₁.cur = some b → l.cur = some b ∧ b ≠ d := by
    intro b hb
    by_cases hat : l.cur = some d
    · simp [l₁, hat] at hb
    · simp only [l₁, if_neg hat] at hb
      exact ⟨hb, fun heq => hat (heq ▸ hb)⟩
  refine ⟨l₁, _, hunlink, hdestroy, ?_, ?_, ?_⟩
  · obtain ⟨-, -, es₃, -, -, -, hes₃⟩ := h.unlink_cells k he
    have hrep : Represents { l₁ with entries := es₃ } (ps.eraseIdx k) (xs.eraseIdx k) := by
      refine h.eraseIdx hd hes₃ rfl rfl rfl ?_
      intro b hb
      obtain ⟨hcurb, hne⟩ := hcur₂ b hb
      have herase := h.cursor_eraseIdx hd hcurb hne
      rwa [if_neg (Nat.not_lt.mpr (hcur b hcurb))] at herase
    refine hrep.of_entries fun b hb => ?_
    have hbd : b ≠ d := by
      rintro rfl
      obtain ⟨i, hi⟩ := List.mem_iff_getElem?.mp hb
      rw [List.getElem?_eraseIdx] at hi
      split at hi
      · exact absurd (index_unique h.linked.nodup hi hd) (by omega)
      · exact absurd (index_unique h.linked.nodup hi hd) (by omega)
    show (es₁.kill d) b = es₃ b
    rw [hother b hbd, hes₃, cellsUnlinked, if_neg hbd]
    rfl
  · intro b hb
    obtain ⟨hcurb, hne⟩ := hcur₂ b hb
    have hat : l.pos ≠ k := by
      intro heq
      have hcursor := h.cursor b hcurb
      rw [heq, hd] at hcursor
      exact hne (Option.some.inj hcursor).symm
    exact Nat.lt_of_le_of_ne (hcur b hcurb) hat
  · intro b f hf
    have hbd : b ≠ d := by
      rintro rfl
      rw [Heap.kill_apply, if_pos rfl] at hf
      cases hf
    rw [hother b hbd] at hf
    obtain ⟨e', he', rfl⟩ := Option.map_eq_some_iff.mp hf
    exact ⟨e', he', rfl⟩

/-! ## The loop -/

section Loop

variable {item_handler : σ → Option V → ℕ → σ × ℤ} {s s' : Iteration V σ}
  {ys zs : List (Option V)}

/-- The calls that the loop makes when these values lie before it, with what the handler
answers. -/
def visit (item_handler : σ → Option V → ℕ → σ × ℤ) :
    σ → ℕ → ℕ → List (Option V) → List (Option V × ℤ)
  | _, _, _, [] => []
  | user, idx, sliceLength, y :: ys =>
      if idx < sliceLength then
        (y, (item_handler user y idx).2) ::
          (if (item_handler user y idx).2 = 0 ∨ (item_handler user y idx).2 = -2 then
            []
          else
            visit item_handler (item_handler user y idx).1 (idx + 1)
              (if (item_handler user y idx).2 = -1 then sliceLength - 1 else sliceLength) ys)
      else
        []

/-- The values that stay, of those that were visited. -/
def keptValues (calls : List (Option V × ℤ)) : List (Option V) :=
  (calls.filter fun c => c.2 ≠ -1 ∧ c.2 ≠ -2).map Prod.fst

/-- Cells that are still alive keep their owner pointer. -/
def OwnersKept (l l' : LinkedList V) : Prop :=
  ∀ b f, l'.entries b = some f → ∃ e, l.entries b = some e ∧ f.list = e.list

theorem OwnersKept.refl (l : LinkedList V) : OwnersKept l l :=
  fun _ f hf => ⟨f, hf, rfl⟩

theorem OwnersKept.trans {l₁ l₂ l₃ : LinkedList V} (h : OwnersKept l₁ l₂)
    (h' : OwnersKept l₂ l₃) : OwnersKept l₁ l₃ := by
  intro b f hf
  obtain ⟨e, he, heq⟩ := h' b f hf
  obtain ⟨e', he', heq'⟩ := h b e he
  exact ⟨e', he', heq.trans heq'⟩

/-- What the loop leaves behind: it has made these calls, `zs` is what it had gone past
before, and `ys` is what lay before it. -/
structure Visited (s : Iteration V σ) (zs ys : List (Option V)) (s' : Iteration V σ)
    (made : List (Option V × ℤ)) : Prop where
  calls : s'.calls = s.calls ++ made
  idx : s'.idx = s.idx + made.length
  values : ∃ ps', Represents s'.list ps' (zs ++ (keptValues made ++ ys.drop made.length))
  owners : OwnersKept s.list s'.list

theorem Visited.none (h : Represents s.list ps (zs ++ ys)) : Visited s zs ys s [] :=
  ⟨(List.append_nil _).symm, rfl, ⟨ps, h⟩, OwnersKept.refl _⟩

/-- The state after one more call. -/
def Iteration.called (s : Iteration V σ) (v : Option V) (rc : σ × ℤ) (l : LinkedList V)
    (sliceLength : ℕ) : Iteration V σ :=
  { list := l
    sliceLength := sliceLength
    idx := s.idx + 1
    user := rc.1
    calls := s.calls ++ [(v, rc.2)] }

theorem Visited.kept {made : List (Option V × ℤ)} {y : Option V} {rc : σ × ℤ} {n : ℕ}
    (hrc : rc.2 ≠ -1 ∧ rc.2 ≠ -2)
    (h : Visited (s.called y rc s.list n) (zs ++ [y]) ys s' made) :
    Visited s zs (y :: ys) s' ((y, rc.2) :: made) := by
  obtain ⟨ps', hrep⟩ := h.values
  refine ⟨?_, ?_, ⟨ps', ?_⟩, h.owners⟩
  · rw [h.calls, Iteration.called, List.append_assoc, List.singleton_append]
  · rw [h.idx, List.length_cons, ← Nat.add_assoc, Nat.add_right_comm]
    rfl
  · have hkept : keptValues ((y, rc.2) :: made) = y :: keptValues made := by
      simp [keptValues, hrc]
    rw [hkept, List.length_cons, List.drop_succ_cons]
    rw [List.append_assoc] at hrep
    exact hrep

theorem Visited.removed {made : List (Option V × ℤ)} {y : Option V} {rc : σ × ℤ} {n : ℕ}
    (hrc : rc.2 = -1 ∨ rc.2 = -2) (howners : OwnersKept s.list l)
    (h : Visited (s.called y rc l n) zs ys s' made) :
    Visited s zs (y :: ys) s' ((y, rc.2) :: made) := by
  obtain ⟨ps', hrep⟩ := h.values
  refine ⟨?_, ?_, ⟨ps', ?_⟩, howners.trans h.owners⟩
  · rw [h.calls, Iteration.called, List.append_assoc, List.singleton_append]
  · rw [h.idx, List.length_cons, ← Nat.add_assoc, Nat.add_right_comm]
    rfl
  · have hkept : keptValues ((y, rc.2) :: made) = keptValues made := by
      rcases hrc with hrc | hrc
      · simp [keptValues, hrc]
      · simp [keptValues, hrc]
    rw [hkept, List.length_cons, List.drop_succ_cons]
    exact hrep

/-! ### One round -/

section Rounds

variable {e : ListEntry V} {n : ℕ} {l₁ l₂ : LinkedList V}

theorem foreachLoop_stop (hidx : s.idx < s.sliceLength) (he : s.list.entries d = some e)
    (hrc : (item_handler s.user e.value s.idx).2 = 0) :
    foreachLoop item_handler (n + 1) s (some d) =
      some (s.called e.value (item_handler s.user e.value s.idx) s.list s.sliceLength) := by
  simp only [foreachLoop, if_pos hidx, he, hrc, Option.bind_eq_bind, Option.bind_some, if_true,
    Iteration.called]

theorem foreachLoop_keep (hidx : s.idx < s.sliceLength) (he : s.list.entries d = some e)
    (hzero : (item_handler s.user e.value s.idx).2 ≠ 0)
    (hrc : (item_handler s.user e.value s.idx).2 ≠ -1 ∧
      (item_handler s.user e.value s.idx).2 ≠ -2) :
    foreachLoop item_handler (n + 1) s (some d) = foreachLoop item_handler n
      (s.called e.value (item_handler s.user e.value s.idx) s.list s.sliceLength) e.next := by
  simp only [foreachLoop, if_pos hidx, he, if_neg hzero, hrc, Option.bind_eq_bind,
    Option.bind_some, or_self, if_false, Iteration.called]

theorem foreachLoop_remove (hidx : s.idx < s.sliceLength) (he : s.list.entries d = some e)
    (hrc : (item_handler s.user e.value s.idx).2 = -1)
    (hunlink : unlinkItem s.list d = some l₁) (hdestroy : l₁.destroyEntry d = some l₂) :
    foreachLoop item_handler (n + 1) s (some d) = foreachLoop item_handler n
      (s.called e.value (item_handler s.user e.value s.idx) l₂ (s.sliceLength - 1)) e.next := by
  simp [foreachLoop, hidx, he, hrc, hunlink, hdestroy, Iteration.called]

theorem foreachLoop_remove_stop (hidx : s.idx < s.sliceLength)
    (he : s.list.entries d = some e) (hrc : (item_handler s.user e.value s.idx).2 = -2)
    (hunlink : unlinkItem s.list d = some l₁) (hdestroy : l₁.destroyEntry d = some l₂) :
    foreachLoop item_handler (n + 1) s (some d) =
      some (s.called e.value (item_handler s.user e.value s.idx) l₂ (s.sliceLength - 1)) := by
  simp [foreachLoop, hidx, he, hrc, hunlink, hdestroy, Iteration.called]

end Rounds

/-- What has been visited is described by `visit`; the items that stay are where they were,
in front of those that have not been visited. -/
theorem foreachLoop_eq (item_handler : σ → Option V → ℕ → σ × ℤ) (ys zs : List (Option V))
    (fuel : ℕ) (s : Iteration V σ) (ps : List Addr) (h : Represents s.list ps (zs ++ ys))
    (hcur : ∀ b, s.list.cur = some b → s.list.pos ≤ zs.length) (hfuel : ys.length < fuel) :
    ∃ s', foreachLoop item_handler fuel s ps[zs.length]? = some s' ∧
      Visited s zs ys s' (visit item_handler s.user s.idx s.sliceLength ys) := by
  induction ys generalizing zs fuel s ps with
  | nil =>
      have hlen := h.length_eq
      rw [List.append_nil] at hlen
      rw [List.getElem?_eq_none (le_of_eq hlen.symm)]
      refine ⟨s, ?_, Visited.none h⟩
      cases fuel with
      | zero => rfl
      | succ n => rfl
  | cons y ys ih =>
      obtain ⟨n, rfl⟩ : ∃ n, fuel = n + 1 := ⟨fuel - 1, by omega⟩
      have hfuel' : ys.length < n := Nat.lt_of_succ_lt_succ hfuel
      have hlen := h.length_eq
      rw [List.length_append, List.length_cons] at hlen
      obtain ⟨d, e, hd, he, -, hnext, hval⟩ :=
        h.entry_of_lt (show zs.length < ps.length by omega)
      obtain rfl : y = e.value := by
        rw [List.getElem?_append_right (Nat.le_refl _), Nat.sub_self,
          List.getElem?_cons_zero] at hval
        exact Option.some.inj hval
      rw [hd]
      by_cases hidx : s.idx < s.sliceLength
      · -- The handler is called.
        have herase : (zs ++ e.value :: ys).eraseIdx zs.length = zs ++ ys := by
          rw [List.eraseIdx_append_of_length_le (Nat.le_refl _), Nat.sub_self,
            List.eraseIdx_cons_zero]
        obtain ⟨l₁, l₂, hunlink, hdestroy, h₂, hcur₂, howners⟩ := h.removeItem_eq hd hcur
        rw [herase] at h₂
        have hnext₂ : e.next = (ps.eraseIdx zs.length)[zs.length]? := by
          rw [hnext, List.getElem?_eraseIdx_of_ge (Nat.le_refl _)]
        have hkeep : Represents s.list ps (zs ++ [e.value] ++ ys) := by
          rwa [List.append_assoc]
        rw [visit, if_pos hidx]
        by_cases hzero : (item_handler s.user e.value s.idx).2 = 0
        · rw [if_pos (Or.inl hzero)]
          refine ⟨_, foreachLoop_stop hidx he hzero, Visited.kept ?_ (Visited.none hkeep)⟩
          rw [hzero]
          exact ⟨by decide, by decide⟩
        by_cases hstop : (item_handler s.user e.value s.idx).2 = -2
        · rw [if_pos (Or.inr hstop)]
          exact ⟨_, foreachLoop_remove_stop hidx he hstop hunlink hdestroy,
            Visited.removed (Or.inr hstop) howners (Visited.none h₂)⟩
        rw [if_neg (not_or.mpr ⟨hzero, hstop⟩)]
        by_cases hremove : (item_handler s.user e.value s.idx).2 = -1
        · rw [if_pos hremove, foreachLoop_remove hidx he hremove hunlink hdestroy, hnext₂]
          obtain ⟨s', hrun, hvisited⟩ := ih zs n
            (s.called e.value (item_handler s.user e.value s.idx) l₂ (s.sliceLength - 1)) _ h₂
            (fun b hb => Nat.le_of_lt (hcur₂ b hb)) hfuel'
          exact ⟨s', hrun, Visited.removed (Or.inl hremove) howners hvisited⟩
        · have hlen' : (zs ++ [e.value]).length = zs.length + 1 := List.length_append
          rw [if_neg hremove, foreachLoop_keep hidx he hzero ⟨hremove, hstop⟩, hnext, ← hlen']
          obtain ⟨s', hrun, hvisited⟩ := ih (zs ++ [e.value]) n
            (s.called e.value (item_handler s.user e.value s.idx) s.list s.sliceLength) _ hkeep
            (fun b hb => hlen' ▸ Nat.le_succ_of_le (hcur b hb)) hfuel'
          exact ⟨s', hrun, Visited.kept ⟨hremove, hstop⟩ hvisited⟩
      · refine ⟨s, ?_, ?_⟩
        · rw [foreachLoop, if_neg hidx]
        · rw [visit, if_neg hidx]
          exact Visited.none h

/-- A slice of a list: the values from its offset on are visited as `visit` says. -/
theorem Represents.sliceForeachValue_eq (h : Represents l ps xs) (hlen : ps.length ≤ 2 ^ 32)
    (offset length : ℕ) (item_handler : σ → Option V → ℕ → σ × ℤ) (user : σ) :
    ∃ s, sliceForeachValue l offset length item_handler user =
        some (s, cInt (visit item_handler user 0 length (xs.drop offset)).length) ∧
      s.calls = visit item_handler user 0 length (xs.drop offset) ∧
      (∃ ps', Represents s.list ps' (xs.take offset ++ (keptValues s.calls ++
        (xs.drop offset).drop s.calls.length))) ∧
      OwnersKept l s.list := by
  by_cases hoffset : offset < ps.length
  · have ha : ps[offset]? = some ps[offset] := List.getElem?_eq_getElem hoffset
    have hpick := h.pickEntry_of_le hlen ha
    have hbrk : ps.length ≤ l.entries.brk := Heap.length_le_brk h.linked.nodup
      fun a ha => Heap.mem_live.mpr (h.isSome_of_mem ha)
    have htake : (xs.take offset).length = offset := by
      rw [List.length_take, h.length_eq]
      omega
    have hsplit : Represents { l with pos := offset, cur := some ps[offset] } ps
        (xs.take offset ++ xs.drop offset) := by
      rw [List.take_append_drop]
      exact h.set_cursor ha
    obtain ⟨s, hrun, hvisited⟩ := foreachLoop_eq item_handler (xs.drop offset) (xs.take offset)
      (l.entries.brk + 1)
      { list := { l with pos := offset, cur := some ps[offset] }, sliceLength := length,
        idx := 0, user := user, calls := [] } ps hsplit
      (fun _ _ => le_of_eq htake.symm)
      (by rw [List.length_drop, h.length_eq]; omega)
    have hcalls := hvisited.calls
    have hidx := hvisited.idx
    have hvalues := hvisited.values
    rw [List.nil_append] at hcalls
    rw [Nat.zero_add] at hidx
    rw [← hcalls] at hidx hvalues
    rw [htake, ha] at hrun
    refine ⟨s, ?_, hcalls, hvalues, hvisited.owners⟩
    rw [← hcalls, ← hidx]
    simp only [sliceForeachValue, hpick, hrun, Option.bind_eq_bind, Option.bind_some]
  · have hge : ps.length ≤ offset := Nat.not_lt.mp hoffset
    have hdrop : xs.drop offset = [] := List.drop_of_length_le (by rwa [h.length_eq])
    have htake : xs.take offset = xs := List.take_of_length_le (by rwa [h.length_eq])
    have hpick := h.pickEntry_of_ge hge
    rw [hdrop, htake]
    refine ⟨{ list := l, sliceLength := length, idx := 0, user := user, calls := [] }, ?_, rfl,
      ⟨ps, ?_⟩, OwnersKept.refl l⟩
    · simp only [sliceForeachValue, hpick, foreachLoop, Option.bind_eq_bind, Option.bind_some]
      rfl
    · simpa [visit, keptValues] using h

end Loop

end LinkedList
end LibHL
