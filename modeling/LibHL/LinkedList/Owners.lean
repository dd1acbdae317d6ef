import LibHL.LinkedList.BadPositions
import LibHL.LinkedList.Sort
import LibHL.LinkedList.WholeSlice

/-!
# Owner pointers

An entry gets its owner pointer when it is pushed or unshifted, and loses it when it is
taken out.  The one way to link an entry that leaves the pointer null is the insertion
between two others, which moves and swaps use as well.  Without it, every entry of every
reachable list has its owner, and sorting the list is safe.
-/

namespace LibHL
namespace LinkedList

variable {V : Type}

/-! ## Calls -/

/-- The public calls on a list.  Clearing a list is a run of shifts, and the tagged calls
link, look up and unlink entries as the calls on values do.  The handler of an iteration is
given by the codes that it returns. -/
inductive PublicOp (V : Type) where
  | call (op : ListOp V)
  | sort (comparator : Option V → Option V → ℤ)
  | foreach (codes : List ℤ)
  | sliceForeach (offset length : ℕ) (codes : List ℤ)

/-- A handler that returns the given codes, and stops at their end. -/
def scripted (codes : List ℤ) (_ : Option V) (_ : ℕ) : List ℤ × ℤ :=
  (codes.tail, codes.headD 0)

/-- One public call. -/
def publicStep (l : LinkedList V) : PublicOp V → Option (LinkedList V × Option (ListOut V))
  | .call op => (listStep l op).map fun r => (r.1, some r.2)
  | .sort comparator => (listSort comparator l).map fun l' => (l', none)
  | .foreach codes => (listForeachValue l scripted codes).map fun r =>
      (r.1.list, some (.code r.2))
  | .sliceForeach offset length codes =>
      (sliceForeachValue l offset length scripted codes).map fun r =>
        (r.1.list, some (.code r.2))

/-- A call on values that links no entry between two others. -/
def LinksAtEnds (l : LinkedList V) : ListOp V → Prop
  | .insert _ pos => pos = 0 ∨ l.listCount ≤ pos
  | .move srcPos dstPos =>
      l.listCount ≤ srcPos ∨ dstPos = 0 ∨ l.listCount ≤ dstPos + 1
  | .swap pos1 pos2 => pos1 = pos2 ∨ l.listCount ≤ max pos1 pos2 ∨
      (min pos1 pos2 = 0 ∧ max pos1 pos2 + 1 = l.listCount)
  | _ => True

/-- The calls considered: nothing is linked between two entries, and the length and the
positions fit in an `int`. -/
def PublicOk (l : LinkedList V) : PublicOp V → Prop
  | .call op => l.listCount < 2 ^ 31 ∧ (∀ pos ∈ op.positions, pos < 2 ^ 31) ∧ LinksAtEnds l op
  | _ => l.listCount < 2 ^ 31

instance (l : LinkedList V) (op : ListOp V) : Decidable (LinksAtEnds l op) :=
  match op with
  | .insert _ pos => inferInstanceAs (Decidable (pos = 0 ∨ l.listCount ≤ pos))
  | .move srcPos dstPos => inferInstanceAs
      (Decidable (l.listCount ≤ srcPos ∨ dstPos = 0 ∨ l.listCount ≤ dstPos + 1))
  | .swap pos1 pos2 => inferInstanceAs (Decidable (pos1 = pos2 ∨ l.listCount ≤ max pos1 pos2 ∨
      (min pos1 pos2 = 0 ∧ max pos1 pos2 + 1 = l.listCount)))
  | .push _ | .pop | .unshift _ | .shift | .pick _ | .fetch _ | .set _ _ | .subst _ _
  | .count => isTrue trivial

instance (l : LinkedList V) (op : PublicOp V) : Decidable (PublicOk l op) :=
  match op with
  | .call op => inferInstanceAs (Decidable (_ ∧ (∀ pos ∈ op.positions, _) ∧ LinksAtEnds l op))
  | .sort _ | .foreach _ | .sliceForeach _ _ _ =>
      inferInstanceAs (Decidable (l.listCount < 2 ^ 31))

/-! ## Entries without an owner -/

/-- Only these entries may lack the owner pointer. -/
def OwnedBut (es : Heap (ListEntry V)) (loose : List Addr) : Prop :=
  ∀ a e, es a = some e → e.list = true ∨ a ∈ loose

theorem ownedBut_nil {es : Heap (ListEntry V)} : OwnedBut es [] ↔ AllOwned es := by
  refine forall₂_congr fun a e => forall_congr' fun _ => ?_
  exact or_iff_left List.not_mem_nil

section Heaps

variable {es es' : Heap (ListEntry V)} {loose : List Addr} {a : Addr}
  {f : ListEntry V → ListEntry V}

theorem OwnedBut.modify (h : OwnedBut es loose) (hf : ∀ e, (f e).list = e.list)
    (hrun : es.modify a f = some es') : OwnedBut es' loose := by
  obtain ⟨x, hx, rfl⟩ := Option.map_eq_some_iff.mp hrun
  intro b e he
  by_cases hb : b = a
  · subst hb
    rw [Heap.put_self hx] at he
    cases he
    exact hf x ▸ h b x hx
  · rw [Heap.put_of_ne hb] at he
    exact h b e he

theorem OwnedBut.setNext {entry next : Option Addr} (h : OwnedBut es loose)
    (hrun : setNext es entry next = some es') : OwnedBut es' loose := by
  cases entry with
  | none =>
      cases hrun
      exact h
  | some a => exact h.modify (f := fun e => { e with next := next }) (fun _ => rfl) hrun

theorem OwnedBut.setPrev {entry prev : Option Addr} (h : OwnedBut es loose)
    (hrun : setPrev es entry prev = some es') : OwnedBut es' loose := by
  cases entry with
  | none =>
      cases hrun
      exact h
  | some a => exact h.modify (f := fun e => { e with prev := prev }) (fun _ => rfl) hrun

theorem OwnedBut.own (h : OwnedBut es (a :: loose)) (hf : ∀ e, (f e).list = true)
    (hrun : es.modify a f = some es') : OwnedBut es' loose := by
  obtain ⟨x, hx, rfl⟩ := Option.map_eq_some_iff.mp hrun
  intro b e he
  by_cases hb : b = a
  · subst hb
    rw [Heap.put_self hx] at he
    cases he
    exact Or.inl (hf x)
  · rw [Heap.put_of_ne hb] at he
    exact (h b e he).imp_right fun hmem => (List.mem_cons.mp hmem).resolve_left hb

theorem OwnedBut.detach (h : OwnedBut es loose) (hrun : detach es a = some es') :
    OwnedBut es' (a :: loose) := by
  obtain ⟨x, hx, rfl⟩ := Option.map_eq_some_iff.mp hrun
  intro b e he
  by_cases hb : b = a
  · exact Or.inr (hb ▸ List.mem_cons_self)
  · rw [Heap.put_of_ne hb] at he
    exact (h b e he).imp_right (List.mem_cons_of_mem a)

theorem OwnedBut.free (h : OwnedBut es (a :: loose)) (hrun : es.free a = some es') :
    OwnedBut es' loose := by
  obtain ⟨x, hx, rfl⟩ := Option.map_eq_some_iff.mp hrun
  intro b e he
  rw [Heap.kill_apply] at he
  by_cases hb : b = a
  · rw [if_pos hb] at he
    cases he
  · rw [if_neg hb] at he
    exact (h b e he).imp_right fun hmem => (List.mem_cons.mp hmem).resolve_left hb

end Heaps

/-! ## What the routines do to the owner pointers -/

variable {l l' : LinkedList V} {loose : List Addr} {a : Addr} {rc : ℤ}

theorem createEntry_ownedBut (h : OwnedBut l.entries loose) :
    OwnedBut l.createEntry.1.entries (l.createEntry.2 :: loose) := by
  intro b e he
  by_cases hb : b = l.entries.brk
  · exact Or.inr (hb ▸ List.mem_cons_self)
  · have hbe : l.entries b = some e := by
      rw [← he]
      exact (if_neg hb).symm
    exact (h b e hbe).imp_right (List.mem_cons_of_mem _)

theorem clearEndsIfEmpty_entries (l : LinkedList V) : l.clearEndsIfEmpty.entries = l.entries := by
  unfold clearEndsIfEmpty
  split
  · rfl
  · rfl

theorem popEntry_ownedBut (h : OwnedBut l.entries loose)
    (hrun : l.popEntry = some (l', some a)) : OwnedBut l'.entries (a :: loose) := by
  cases htail : l.tail with
  | none => simp [popEntry, htail] at hrun
  | some b =>
      simp only [popEntry, htail, Option.bind_eq_bind, Option.bind_eq_some_iff] at hrun
      obtain ⟨e, -, es₁, hset, es₂, hdetach, heq⟩ := hrun
      obtain ⟨rfl, hab⟩ := Prod.mk.inj (Option.some.inj heq)
      cases hab
      rw [clearEndsIfEmpty_entries]
      exact (h.setNext hset).detach hdetach

theorem shiftEntry_ownedBut (h : OwnedBut l.entries loose)
    (hrun : l.shiftEntry = some (l', some a)) : OwnedBut l'.entries (a :: loose) := by
  cases hhead : l.head with
  | none => simp [shiftEntry, hhead] at hrun
  | some b =>
      simp only [shiftEntry, hhead, Option.bind_eq_bind, Option.bind_eq_some_iff] at hrun
      obtain ⟨e, -, es₁, hset, es₂, hdetach, heq⟩ := hrun
      obtain ⟨rfl, hab⟩ := Prod.mk.inj (Option.some.inj heq)
      cases hab
      rw [clearEndsIfEmpty_entries]
      exact (h.setPrev hset).detach hdetach

theorem pickEntry_entries {pos : ℕ} {e : Option Addr} (hrun : l.pickEntry pos = some (l', e)) :
    l'.entries = l.entries := by
  unfold pickEntry at hrun
  split at hrun
  · cases hrun
    rfl
  · simp only [Option.bind_eq_bind, Option.bind_eq_some_iff] at hrun
    obtain ⟨entry, -, hentry⟩ := hrun
    cases entry with
    | none =>
        cases hentry
        rfl
    | some b =>
        cases hentry
        rfl

theorem removeEntry_ownedBut {pos : ℕ} (h : OwnedBut l.entries loose)
    (hrun : l.removeEntry pos = some (l', some a)) : OwnedBut l'.entries (a :: loose) := by
  simp only [removeEntry, Option.bind_eq_bind, Option.bind_eq_some_iff] at hrun
  obtain ⟨⟨l₁, picked⟩, hpick, hrest⟩ := hrun
  rw [← pickEntry_entries hpick] at h
  cases picked with
  | none => cases hrest
  | some b =>
      simp only [Option.bind_eq_some_iff] at hrest
      obtain ⟨e, -, es₁, hset₁, es₂, hset₂, es₃, hdetach, heq⟩ := hrest
      obtain ⟨rfl, hab⟩ := Prod.mk.inj (Option.some.inj heq)
      cases hab
      exact ((h.setNext hset₁).setPrev hset₂).detach hdetach

theorem fetchEntry_ownedBut {pos : ℕ} (h : OwnedBut l.entries loose)
    (hrun : l.fetchEntry pos = some (l', some a)) : OwnedBut l'.entries (a :: loose) := by
  unfold fetchEntry at hrun
  by_cases hfirst : pos = 0
  · rw [if_pos hfirst] at hrun
    exact shiftEntry_ownedBut h hrun
  rw [if_neg hfirst] at hrun
  by_cases hlast : pos = if l.length = 0 then 2 ^ 64 - 1 else l.length - 1
  · rw [if_pos hlast] at hrun
    exact popEntry_ownedBut h hrun
  · rw [if_neg hlast] at hrun
    exact removeEntry_ownedBut h hrun

theorem pushEntry_ownedBut (h : OwnedBut l.entries (a :: loose))
    (hrun : l.pushEntry (some a) = some (l', rc)) :
    rc = 0 ∧ l'.length = l.length + 1 ∧ OwnedBut l'.entries loose := by
  simp only [pushEntry, Option.bind_eq_bind] at hrun
  by_cases hlen : l.length = 0
  · simp only [if_pos hlen, Option.bind_some, Option.bind_eq_some_iff] at hrun
    obtain ⟨es, hown, heq⟩ := hrun
    cases heq
    exact ⟨rfl, rfl, h.own (fun _ => rfl) hown⟩
  · simp only [if_neg hlen, Option.bind_eq_some_iff] at hrun
    obtain ⟨p, -, es₁, hset₁, es₂, hset₂, l₁, hlist, es, hown, heq⟩ := hrun
    cases hlist
    cases heq
    have h₁ : OwnedBut es₁ (a :: loose) :=
      h.modify (f := fun e => { e with next := some a }) (fun _ => rfl) hset₁
    have h₂ : OwnedBut es₂ (a :: loose) :=
      h₁.modify (f := fun e => { e with prev := some p, next := none }) (fun _ => rfl) hset₂
    exact ⟨rfl, rfl, h₂.own (fun _ => rfl) hown⟩

theorem unshiftEntry_ownedBut (h : OwnedBut l.entries (a :: loose))
    (hrun : l.unshiftEntry (some a) = some (l', rc)) :
    rc = 0 ∧ l'.length = l.length + 1 ∧ OwnedBut l'.entries loose := by
  simp only [unshiftEntry, Option.bind_eq_bind] at hrun
  by_cases hlen : l.length = 0
  · simp only [if_pos hlen, Option.bind_some, Option.bind_eq_some_iff] at hrun
    obtain ⟨es, hown, heq⟩ := hrun
    cases heq
    exact ⟨rfl, rfl, h.own (fun _ => rfl) hown⟩
  · simp only [if_neg hlen, Option.bind_eq_some_iff] at hrun
    obtain ⟨p, -, es₁, hset₁, es₂, hset₂, l₁, hlist, es, hown, heq⟩ := hrun
    cases hlist
    cases heq
    have h₁ : OwnedBut es₁ (a :: loose) :=
      h.modify (f := fun e => { e with prev := some a }) (fun _ => rfl) hset₁
    have h₂ : OwnedBut es₂ (a :: loose) :=
      h₁.modify (f := fun e => { e with prev := none, next := some p }) (fun _ => rfl) hset₂
    exact ⟨rfl, rfl, h₂.own (fun _ => rfl) hown⟩

theorem padEntries_ownedBut (n : ℕ) (h : OwnedBut l.entries loose)
    (hrun : padEntries n l = some l') : OwnedBut l'.entries loose := by
  induction n generalizing l with
  | zero =>
      cases hrun
      exact h
  | succ n ih =>
      simp only [padEntries, Option.bind_eq_bind, Option.bind_eq_some_iff] at hrun
      obtain ⟨⟨l₁, rc₁⟩, hpush, hrest⟩ := hrun
      exact ih (pushEntry_ownedBut (createEntry_ownedBut h) hpush).2.2 hrest

/-- Inserting at the beginning, at the end or past it succeeds and gives the entry its
owner. -/
theorem insertEntry_ownedBut {pos : ℕ} (hpos : pos = 0 ∨ l.length ≤ pos)
    (h : OwnedBut l.entries (a :: loose)) (hrun : l.insertEntry (some a) pos = some (l', rc)) :
    rc = 0 ∧ OwnedBut l'.entries loose := by
  simp only [insertEntry, Option.bind_eq_bind] at hrun
  by_cases hfirst : pos = 0
  · simp only [if_pos hfirst, Option.bind_eq_some_iff] at hrun
    obtain ⟨⟨l₁, ret⟩, hunshift, hrest⟩ := hrun
    obtain ⟨rfl, -, hown⟩ := unshiftEntry_ownedBut h hunshift
    cases hrest
    exact ⟨rfl, hown⟩
  by_cases hend : pos = l.length
  · simp only [if_neg hfirst, if_pos hend, Option.bind_eq_some_iff] at hrun
    obtain ⟨⟨l₁, ret⟩, hpush, hrest⟩ := hrun
    obtain ⟨rfl, -, hown⟩ := pushEntry_ownedBut h hpush
    cases hrest
    exact ⟨rfl, hown⟩
  · have hpast : l.length < pos := by omega
    simp only [if_neg hfirst, if_neg hend, if_pos hpast, Option.bind_eq_some_iff] at hrun
    obtain ⟨l₁, hpad, ⟨l₂, ret⟩, hpush, hrest⟩ := hrun
    obtain ⟨rfl, -, hown⟩ := pushEntry_ownedBut (padEntries_ownedBut _ h hpad) hpush
    cases hrest
    exact ⟨rfl, hown⟩

theorem insertAfterPicked_null_entries {pos : ℕ}
    (hrun : l.insertAfterPicked none pos = some (l', rc)) : l'.entries = l.entries := by
  simp only [insertAfterPicked, Option.bind_eq_bind, Option.bind_eq_some_iff] at hrun
  obtain ⟨⟨l₁, prev⟩, hpick, hlink⟩ := hrun
  cases prev with
  | none =>
      cases hlink
      exact pickEntry_entries hpick
  | some p =>
      simp at hlink

theorem insertEntry_null_ownedBut {pos : ℕ} (h : OwnedBut l.entries loose)
    (hrun : l.insertEntry none pos = some (l', rc)) : OwnedBut l'.entries loose := by
  have hne : ¬ (-1 : ℤ) = 0 := by decide
  simp only [insertEntry, Option.bind_eq_bind] at hrun
  by_cases hfirst : pos = 0
  · rw [if_pos hfirst, unshiftEntry, Option.bind_some, if_neg hne] at hrun
    exact insertAfterPicked_null_entries hrun ▸ h
  by_cases hend : pos = l.length
  · rw [if_neg hfirst, if_pos hend, pushEntry, Option.bind_some, if_neg hne] at hrun
    exact insertAfterPicked_null_entries hrun ▸ h
  by_cases hpast : l.length < pos
  · rw [if_neg hfirst, if_neg hend, if_pos hpast] at hrun
    obtain ⟨l₁, hpad, hrest⟩ := Option.bind_eq_some_iff.mp hrun
    rw [pushEntry, Option.bind_some, if_neg hne] at hrest
    exact insertAfterPicked_null_entries hrest ▸ padEntries_ownedBut _ h hpad
  · rw [if_neg hfirst, if_neg hend, if_neg hpast, Option.bind_some, if_neg hne] at hrun
    exact insertAfterPicked_null_entries hrun ▸ h

/-- Destroying an entry that is linked nowhere frees it. -/
theorem destroyEntry_ownedBut {v : Option V} (hl : Loose l.entries a v)
    (h : OwnedBut l.entries (a :: loose)) (hrun : l.destroyEntry a = some l') :
    OwnedBut l'.entries loose := by
  unfold Loose at hl
  simp only [destroyEntry, hl, Option.bind_eq_bind, Option.bind_some, Bool.false_eq_true,
    if_false, Option.bind_eq_some_iff] at hrun
  obtain ⟨es, hfree, heq⟩ := hrun
  cases heq
  exact h.free hfree

/-! ## The calls on values -/

section Values

variable {ps : List Addr} {xs : List (Option V)} {out : Option V}

/-- Taking the value of an entry that was unlinked. -/
theorem takeValue_ownedBut {l₀ : LinkedList V} {k : ℕ} {v : Option V}
    (hu : Represents.Unlinked l₀ ps xs k l a v) (h : OwnedBut l.entries (a :: loose))
    (hrun : takeValue (l, some a) = some (l', out)) : OwnedBut l'.entries loose := by
  simp only [takeValue, Option.bind_eq_bind, Option.bind_eq_some_iff] at hrun
  obtain ⟨e, -, l₁, hdestroy, heq⟩ := hrun
  cases heq
  exact destroyEntry_ownedBut hu.loose h hdestroy

theorem listPopValue_ownedBut (hrep : Represents l ps xs) (h : OwnedBut l.entries loose)
    (hrun : l.listPopValue = some (l', out)) : OwnedBut l'.entries loose := by
  by_cases hne : ps.length = 0
  · have hps : ps = [] := List.eq_nil_of_length_eq_zero hne
    subst hps
    rw [listPopValue, hrep.popEntry_of_empty] at hrun
    cases hrun
    exact h
  · obtain ⟨l₁, a, v, hpop, hu⟩ := hrep.popEntry_eq hne
    rw [listPopValue, hpop] at hrun
    exact takeValue_ownedBut hu (popEntry_ownedBut h hpop) hrun

theorem listShiftValue_ownedBut (hrep : Represents l ps xs) (h : OwnedBut l.entries loose)
    (hrun : l.listShiftValue = some (l', out)) : OwnedBut l'.entries loose := by
  by_cases hne : ps.length = 0
  · have hps : ps = [] := List.eq_nil_of_length_eq_zero hne
    subst hps
    rw [listShiftValue, hrep.shiftEntry_of_empty] at hrun
    cases hrun
    exact h
  · obtain ⟨l₁, a, v, hshift, hu⟩ := hrep.shiftEntry_eq hne
    rw [listShiftValue, hshift] at hrun
    exact takeValue_ownedBut hu (shiftEntry_ownedBut h hshift) hrun

theorem listFetchValue_ownedBut {pos : ℕ} (hrep : Represents l ps xs)
    (hlen : ps.length < 2 ^ 31) (h : OwnedBut l.entries loose)
    (hrun : l.listFetchValue pos = some (l', out)) : OwnedBut l'.entries loose := by
  by_cases hpos : pos < ps.length
  · obtain ⟨l₁, a, v, hfetch, hu⟩ := hrep.fetchEntry_eq hlen hpos
    rw [listFetchValue, hfetch] at hrun
    exact takeValue_ownedBut hu (fetchEntry_ownedBut h hfetch) hrun
  · rw [listFetchValue, hrep.fetchEntry_of_ge (Nat.not_lt.mp hpos)] at hrun
    cases hrun
    exact h

/-- A new entry that is linked with success and gets its owner there. -/
theorem linkValue_ownedBut {val : Option V}
    {link : LinkedList V → Option Addr → Option (LinkedList V × ℤ)}
    (hlink : ∀ {l₁ l₂ : LinkedList V} {a : Addr} {rc : ℤ}, l₁.length = l.length →
      OwnedBut l₁.entries (a :: loose) → link l₁ (some a) = some (l₂, rc) →
      rc = 0 ∧ OwnedBut l₂.entries loose)
    (h : OwnedBut l.entries loose) (hrun : l.linkValue val link = some (l', rc)) :
    OwnedBut l'.entries loose := by
  simp only [linkValue, setEntryValue, Option.bind_eq_bind, Option.bind_eq_some_iff] at hrun
  obtain ⟨l₁, ⟨es, hset, heq₁⟩, ⟨l₂, res⟩, hrunlink, hrest⟩ := hrun
  cases heq₁
  have h₁ : OwnedBut es (l.createEntry.2 :: loose) :=
    (createEntry_ownedBut h).modify (f := fun e => { e with value := val }) (fun _ => rfl) hset
  have hlen : { l.createEntry.1 with entries := es }.length = l.length := rfl
  obtain ⟨rfl, h₂⟩ := hlink hlen h₁ hrunlink
  cases hrest
  exact h₂

theorem listPushValue_ownedBut {val : Option V} (h : OwnedBut l.entries loose)
    (hrun : l.listPushValue val = some (l', rc)) : OwnedBut l'.entries loose := by
  refine linkValue_ownedBut ?_ h hrun
  intro l₁ l₂ a rc _ h₁ hpush
  obtain ⟨hrc, -, h₂⟩ := pushEntry_ownedBut h₁ hpush
  exact ⟨hrc, h₂⟩

theorem listUnshiftValue_ownedBut {val : Option V} (h : OwnedBut l.entries loose)
    (hrun : l.listUnshiftValue val = some (l', rc)) : OwnedBut l'.entries loose := by
  refine linkValue_ownedBut ?_ h hrun
  intro l₁ l₂ a rc _ h₁ hunshift
  obtain ⟨hrc, -, h₂⟩ := unshiftEntry_ownedBut h₁ hunshift
  exact ⟨hrc, h₂⟩

theorem listInsertValue_ownedBut {val : Option V} {pos : ℕ} (hpos : pos = 0 ∨ l.length ≤ pos)
    (h : OwnedBut l.entries loose) (hrun : l.listInsertValue val pos = some (l', rc)) :
    OwnedBut l'.entries loose := by
  refine linkValue_ownedBut ?_ h hrun
  intro l₁ l₂ a rc hlen h₁ hinsert
  exact insertEntry_ownedBut (hlen ▸ hpos) h₁ hinsert

theorem setEntryValue_ownedBut {val : Option V} (h : OwnedBut l.entries loose)
    (hrun : l.setEntryValue a val = some l') : OwnedBut l'.entries loose := by
  obtain ⟨es, hset, heq⟩ := Option.bind_eq_some_iff.mp hrun
  cases heq
  exact h.modify (f := fun e => { e with value := val }) (fun _ => rfl) hset

theorem listPickValue_entries {pos : ℕ} (hrun : l.listPickValue pos = some (l', out)) :
    l'.entries = l.entries := by
  simp only [listPickValue, Option.bind_eq_bind, Option.bind_eq_some_iff] at hrun
  obtain ⟨⟨l₁, entry⟩, hpick, hrest⟩ := hrun
  rw [← pickEntry_entries hpick]
  cases entry with
  | none =>
      cases hrest
      rfl
  | some a =>
      obtain ⟨e, -, heq⟩ := Option.bind_eq_some_iff.mp hrest
      cases heq
      rfl

theorem listSubstValue_ownedBut {pos : ℕ} {newval : Option V} (h : OwnedBut l.entries loose)
    (hrun : l.listSubstValue pos newval = some (l', out)) : OwnedBut l'.entries loose := by
  simp only [listSubstValue, Option.bind_eq_bind, Option.bind_eq_some_iff] at hrun
  obtain ⟨⟨l₁, entry⟩, hpick, hrest⟩ := hrun
  rw [← pickEntry_entries hpick] at h
  cases entry with
  | none =>
      cases hrest
      exact h
  | some a =>
      simp only [Option.bind_eq_some_iff] at hrest
      obtain ⟨e, -, l₂, hset, heq⟩ := hrest
      cases heq
      exact setEntryValue_ownedBut h hset

theorem listSetValue_ownedBut {pos : ℕ} {newval : Option V} (hrep : Represents l ps xs)
    (hlen : ps.length < 2 ^ 31) (h : OwnedBut l.entries loose)
    (hrun : l.listSetValue pos newval = some (l', out)) : OwnedBut l'.entries loose := by
  by_cases hpos : pos < ps.length
  · have hpick := hrep.pickEntry_of_lt hlen (List.getElem?_eq_getElem hpos)
    simp only [listSetValue, hpick, Option.bind_eq_bind, Option.bind_some,
      Option.bind_eq_some_iff] at hrun
    obtain ⟨e, -, l₂, hset, heq⟩ := hrun
    cases heq
    exact setEntryValue_ownedBut (l := { l with pos := pos, cur := some ps[pos] }) h hset
  · have hpick := hrep.pickEntry_of_ge (Nat.not_lt.mp hpos)
    simp only [listSetValue, hpick, Option.bind_eq_bind, Option.bind_some,
      Option.bind_eq_some_iff] at hrun
    obtain ⟨⟨l₂, rc⟩, hinsert, heq⟩ := hrun
    cases heq
    refine listInsertValue_ownedBut (Or.inr ?_) h hinsert
    rw [hrep.length]
    exact Nat.not_lt.mp hpos

/-! ## Moves and swaps -/

/-- An entry that was taken out of the list and is inserted again at an end of it. -/
theorem Represents.Unlinked.insertEntry_ownedBut {l₀ : LinkedList V} {k pos : ℕ} {v : Option V}
    (hu : Represents.Unlinked l₀ ps xs k l a v) (hpos : pos = 0 ∨ ps.length ≤ pos + 1)
    (h : OwnedBut l.entries (a :: loose)) (hrun : l.insertEntry (some a) pos = some (l', rc)) :
    rc = 0 ∧ OwnedBut l'.entries loose := by
  have hk : k < ps.length := (List.getElem?_eq_some_iff.mp hu.entry).1
  have hlen : l.length = ps.length - 1 := by
    rw [hu.represents.length, List.length_eraseIdx_of_lt hk]
  exact LinkedList.insertEntry_ownedBut (hpos.imp_right fun hge => by omega) h hrun

theorem listMoveValue_ownedBut {srcPos dstPos : ℕ} (hrep : Represents l ps xs)
    (hlen : ps.length < 2 ^ 31)
    (hpos : ps.length ≤ srcPos ∨ dstPos = 0 ∨ ps.length ≤ dstPos + 1)
    (h : OwnedBut l.entries loose) (hrun : l.listMoveValue srcPos dstPos = some (l', rc)) :
    OwnedBut l'.entries loose := by
  by_cases hsrc : srcPos < ps.length
  · obtain ⟨l₁, a, v, hfetch, hu⟩ := hrep.fetchEntry_eq hlen hsrc
    simp only [listMoveValue, moveEntry, hfetch, Option.bind_eq_bind, Option.bind_some,
      Option.bind_eq_some_iff] at hrun
    obtain ⟨⟨l₂, ret⟩, hinsert, hrest⟩ := hrun
    obtain ⟨rfl, h₂⟩ := hu.insertEntry_ownedBut (hpos.resolve_left (by omega))
      (fetchEntry_ownedBut h hfetch) hinsert
    cases hrest
    exact h₂
  · rw [hrep.listMoveValue_of_ge srcPos dstPos (Nat.not_lt.mp hsrc)] at hrun
    cases hrun
    exact h

/-- The second half of an exchange: the entry at `pos` is inserted at the end. -/
theorem fetch_insert_ownedBut {pos hi : ℕ} {l₁ : LinkedList V} {e : Option Addr}
    (hrep : Represents l ps xs) (hlen : ps.length < 2 ^ 31) (hend : ps.length ≤ hi + 1)
    (h : OwnedBut l.entries loose) (hfetch : l.fetchEntry pos = some (l₁, e))
    (hrun : l₁.insertEntry e hi = some (l', rc)) : OwnedBut l'.entries loose := by
  by_cases hpos : pos < ps.length
  · obtain ⟨l₂, a, v, hfetch', hu⟩ := hrep.fetchEntry_eq hlen hpos
    rw [hfetch'] at hfetch
    cases hfetch
    exact (hu.insertEntry_ownedBut (Or.inr hend) (fetchEntry_ownedBut h hfetch') hrun).2
  · rw [hrep.fetchEntry_of_ge (Nat.not_lt.mp hpos)] at hfetch
    cases hfetch
    exact insertEntry_null_ownedBut h hrun

/-- An exchange of the first entry with the last one, or with a position past the end. -/
theorem exchangeEntries_ownedBut {lo hi : ℕ} (hrep : Represents l ps xs)
    (hlen : ps.length < 2 ^ 31) (hlt : lo < hi) (hhi : hi < 2 ^ 31)
    (hends : ps.length ≤ hi ∨ (lo = 0 ∧ hi + 1 = ps.length))
    (h : OwnedBut l.entries loose) (hrun : l.exchangeEntries lo hi = some (l', rc)) :
    OwnedBut l'.entries loose := by
  simp only [exchangeEntries, Option.bind_eq_bind, Option.bind_eq_some_iff] at hrun
  obtain ⟨⟨l₁, e₂⟩, hfetch₂, ⟨l₂, rc₂⟩, hinsert₂, ⟨l₃, e₁⟩, hfetch₁, ⟨l₄, rc₁⟩, hinsert₁, heq⟩ :=
    hrun
  cases heq
  by_cases hge : ps.length ≤ hi
  · rw [hrep.fetchEntry_of_ge hge] at hfetch₂
    cases hfetch₂
    by_cases hlo : lo = 0
    · subst hlo
      rw [insertEntry_null_zero hrep hlen] at hinsert₂
      cases hinsert₂
      exact fetch_insert_ownedBut hrep hlen (Nat.le_succ_of_le hge) h hfetch₁ hinsert₁
    · rw [insertEntry_null hrep hlen hlo (by omega)] at hinsert₂
      cases hinsert₂
  · obtain ⟨rfl, hlast⟩ := hends.resolve_left hge
    obtain ⟨l₅, a, v, hfetch, hu⟩ := hrep.fetchEntry_eq hlen (Nat.not_le.mp hge)
    rw [hfetch] at hfetch₂
    cases hfetch₂
    have h₂ := (hu.insertEntry_ownedBut (Or.inl rfl) (fetchEntry_ownedBut h hfetch) hinsert₂).2
    have hk : (ps.eraseIdx hi).length = ps.length - 1 :=
      List.length_eraseIdx_of_lt (Nat.not_le.mp hge)
    obtain ⟨l₆, ps₂, hinsert, hrep₂⟩ :=
      hu.represents.insertEntry_eq hu.loose (hu.not_mem hrep) (by omega) 0
    rw [hinsert] at hinsert₂
    cases hinsert₂
    have hlen₂ : ps₂.length = ps.length := by
      rw [← hrep₂.length_eq, insertPadded_of_le (Nat.zero_le _),
        List.length_insertIdx_of_le_length (Nat.zero_le _), hu.represents.length_eq, hk]
      omega
    exact fetch_insert_ownedBut hrep₂ (hlen₂ ▸ hlen) (by omega) h₂ hfetch₁ hinsert₁

theorem listSwapValues_ownedBut {pos1 pos2 : ℕ} (hrep : Represents l ps xs)
    (hlen : ps.length < 2 ^ 31) (hpos1 : pos1 < 2 ^ 31) (hpos2 : pos2 < 2 ^ 31)
    (hends : pos1 = pos2 ∨ ps.length ≤ max pos1 pos2 ∨
      (min pos1 pos2 = 0 ∧ max pos1 pos2 + 1 = ps.length))
    (h : OwnedBut l.entries loose) (hrun : l.listSwapValues pos1 pos2 = some (l', rc)) :
    OwnedBut l'.entries loose := by
  rcases lt_trichotomy pos1 pos2 with hlt | rfl | hgt
  · rw [listSwapValues, swapEntries, if_pos hlt] at hrun
    exact exchangeEntries_ownedBut hrep hlen hlt hpos2 (by omega) h hrun
  · rw [listSwapValues_self] at hrun
    cases hrun
    exact h
  · rw [listSwapValues, swapEntries, if_neg (Nat.not_lt_of_gt hgt), if_pos hgt] at hrun
    exact exchangeEntries_ownedBut hrep hlen hgt hpos1 (by omega) h hrun

end Values

/-! ## One call -/

section Step

variable {ps : List Addr} {xs : List (Option V)}

/-- A call on values that links at the ends leaves no entry without its owner. -/
theorem listStep_ownedBut {op : ListOp V} {out : ListOut V} (hrep : Represents l ps xs)
    (hlen : ps.length < 2 ^ 31) (hpos : ∀ pos ∈ op.positions, pos < 2 ^ 31)
    (hends : LinksAtEnds l op) (h : OwnedBut l.entries loose)
    (hrun : listStep l op = some (l', out)) : OwnedBut l'.entries loose := by
  cases op with
  | push val =>
      obtain ⟨r, hcall, heq⟩ := Option.map_eq_some_iff.mp hrun
      cases heq
      exact listPushValue_ownedBut h hcall
  | pop =>
      obtain ⟨r, hcall, heq⟩ := Option.map_eq_some_iff.mp hrun
      cases heq
      exact listPopValue_ownedBut hrep h hcall
  | unshift val =>
      obtain ⟨r, hcall, heq⟩ := Option.map_eq_some_iff.mp hrun
      cases heq
      exact listUnshiftValue_ownedBut h hcall
  | shift =>
      obtain ⟨r, hcall, heq⟩ := Option.map_eq_some_iff.mp hrun
      cases heq
      exact listShiftValue_ownedBut hrep h hcall
  | insert val pos =>
      obtain ⟨r, hcall, heq⟩ := Option.map_eq_some_iff.mp hrun
      cases heq
      exact listInsertValue_ownedBut hends h hcall
  | pick pos =>
      obtain ⟨r, hcall, heq⟩ := Option.map_eq_some_iff.mp hrun
      cases heq
      exact listPickValue_entries hcall ▸ h
  | fetch pos =>
      obtain ⟨r, hcall, heq⟩ := Option.map_eq_some_iff.mp hrun
      cases heq
      exact listFetchValue_ownedBut hrep hlen h hcall
  | set pos newval =>
      obtain ⟨r, hcall, heq⟩ := Option.map_eq_some_iff.mp hrun
      cases heq
      exact listSetValue_ownedBut hrep hlen h hcall
  | subst pos newval =>
      obtain ⟨r, hcall, heq⟩ := Option.map_eq_some_iff.mp hrun
      cases heq
      exact listSubstValue_ownedBut h hcall
  | move srcPos dstPos =>
      obtain ⟨r, hcall, heq⟩ := Option.map_eq_some_iff.mp hrun
      cases heq
      rw [LinksAtEnds, listCount, hrep.length] at hends
      exact listMoveValue_ownedBut hrep hlen hends h hcall
  | swap pos1 pos2 =>
      obtain ⟨r, hcall, heq⟩ := Option.map_eq_some_iff.mp hrun
      cases heq
      rw [LinksAtEnds, listCount, hrep.length] at hends
      exact listSwapValues_ownedBut hrep hlen (hpos pos1 (by simp [ListOp.positions]))
        (hpos pos2 (by simp [ListOp.positions])) hends h hcall
  | count =>
      cases hrun
      exact h

theorem length_insertPadded (xs : List (Option V)) (pos : ℕ) (v : Option V) :
    (insertPadded xs pos v).length = max xs.length pos + 1 := by
  have hlen : (xs ++ List.replicate (pos - xs.length) none).length = max xs.length pos := by
    rw [List.length_append, List.length_replicate]
    omega
  rw [insertPadded, List.length_insertIdx_of_le_length (by omega), hlen]

theorem length_listRef_le {op : ListOp V} (hlen : xs.length < 2 ^ 31)
    (hpos : ∀ pos ∈ op.positions, pos < 2 ^ 31) : (listRef xs op).1.length ≤ 2 ^ 31 := by
  cases op with
  | push val =>
      rw [listRef, List.length_append, List.length_singleton]
      omega
  | unshift val =>
      rw [listRef, List.length_cons]
      omega
  | insert val pos =>
      have := hpos pos (by simp [ListOp.positions])
      rw [listRef, length_insertPadded]
      omega
  | set pos newval =>
      have := hpos pos (by simp [ListOp.positions])
      simp only [listRef]
      split
      · rw [List.length_set]
        omega
      · rw [length_insertPadded]
        omega
  | move srcPos dstPos =>
      have := hpos dstPos (by simp [ListOp.positions])
      simp only [listRef]
      split
      · have hle := List.length_eraseIdx_le xs srcPos
        rw [length_insertPadded]
        omega
      · exact Nat.le_of_lt hlen
  | pop =>
      rw [listRef, List.length_dropLast]
      omega
  | shift =>
      rw [listRef, List.length_tail]
      omega
  | fetch pos =>
      exact (List.length_eraseIdx_le xs pos).trans (Nat.le_of_lt hlen)
  | subst pos newval =>
      rw [listRef, List.length_set]
      omega
  | swap pos1 pos2 =>
      rw [listRef, List.length_set, List.length_set]
      omega
  | pick pos => exact Nat.le_of_lt hlen
  | count => exact Nat.le_of_lt hlen

/-- A list stays well-linked, also when a swap names bad positions. -/
theorem listSwapValues_represents {pos1 pos2 : ℕ} (hrep : Represents l ps xs)
    (hlen : ps.length < 2 ^ 31) (hpos1 : pos1 < 2 ^ 31) (hpos2 : pos2 < 2 ^ 31)
    (hbad : pos1 = pos2 ∨ ps.length ≤ max pos1 pos2)
    (hrun : l.listSwapValues pos1 pos2 = some (l', rc)) :
    ∃ ps' xs', Represents l' ps' xs' ∧ xs'.length ≤ 2 ^ 31 := by
  have hmissing : ∀ {lo hi : ℕ}, lo < hi → hi < 2 ^ 31 → ps.length ≤ hi →
      l.exchangeEntries lo hi = some (l', rc) →
      ∃ ps' xs', Represents l' ps' xs' ∧ xs'.length ≤ 2 ^ 31 := by
    intro lo hi hlt hhi hge hexchange
    obtain ⟨hmove, hstuck⟩ := exchangeEntries_missing hrep hlen hlt hhi hge
    by_cases hfirst : lo = 0 ∧ 2 ≤ ps.length
    · obtain ⟨l₁, ps₁, hrun₁, hrep₁⟩ := hmove hfirst
      rw [hrun₁] at hexchange
      cases hexchange
      refine ⟨ps₁, _, hrep₁, ?_⟩
      have hle := List.length_eraseIdx_le xs 1
      rw [length_insertPadded, ← hrep.length_eq] at *
      omega
    · rw [hstuck hfirst] at hexchange
      cases hexchange
  rcases lt_trichotomy pos1 pos2 with hlt | rfl | hgt
  · rw [listSwapValues, swapEntries, if_pos hlt] at hrun
    exact hmissing hlt hpos2 (by omega) hrun
  · rw [listSwapValues_self] at hrun
    cases hrun
    exact ⟨ps, xs, hrep, by rw [hrep.length_eq]; omega⟩
  · rw [listSwapValues, swapEntries, if_neg (Nat.not_lt_of_gt hgt), if_pos hgt] at hrun
    exact hmissing hgt hpos1 (by omega) hrun

theorem listStep_represents {op : ListOp V} {out : ListOut V} (hrep : Represents l ps xs)
    (hlen : ps.length < 2 ^ 31) (hpos : ∀ pos ∈ op.positions, pos < 2 ^ 31)
    (hrun : listStep l op = some (l', out)) :
    ∃ ps' xs', Represents l' ps' xs' ∧ xs'.length ≤ 2 ^ 31 := by
  by_cases hgood : ∀ q ∈ op.swapped, q.1 ≠ q.2 ∧ q.1 < l.listCount ∧ q.2 < l.listCount
  · have hcount : l.listCount < 2 ^ 31 := by rwa [listCount, hrep.length]
    have hok : listCallOk l op := ⟨hcount, hpos, hgood⟩
    obtain ⟨l₁, hrun₁, ps₁, hrep₁⟩ := listStep_refines l xs op ⟨ps, hrep⟩ hok
    rw [hrun] at hrun₁
    cases hrun₁
    exact ⟨ps₁, _, hrep₁, length_listRef_le (by rwa [hrep.length_eq]) hpos⟩
  · cases op with
    | swap pos1 pos2 =>
        obtain ⟨r, hcall, heq⟩ := Option.map_eq_some_iff.mp hrun
        cases heq
        refine listSwapValues_represents hrep hlen (hpos pos1 (by simp [ListOp.positions]))
          (hpos pos2 (by simp [ListOp.positions])) ?_ hcall
        simp only [ListOp.swapped, Option.mem_def, Option.some.injEq, forall_eq', listCount,
          hrep.length] at hgood
        omega
    | _ => exact absurd (by simp [ListOp.swapped]) hgood

/-! ## The invariant -/

theorem Represents.owned_of_allOwned (h : Represents l ps xs) (hown : AllOwned l.entries) :
    Owned l ps := by
  intro a ha
  obtain ⟨e, he⟩ := Option.isSome_iff_exists.mp (h.isSome_of_mem ha)
  exact ⟨e, he, hown a e he⟩

/-- A well-linked list whose entries have their owner, with a length that fits. -/
def Sound (l : LinkedList V) : Prop :=
  ∃ ps xs, Represents l ps xs ∧ xs.length ≤ 2 ^ 31 ∧ AllOwned l.entries

theorem sound_listCreate : Sound (listCreate : LinkedList V) :=
  ⟨[], [], represents_listCreate, Nat.zero_le _, fun _ _ he => by cases he⟩

/-- An iteration keeps the owner pointers of the entries that stay. -/
theorem sliceForeachValue_sound {σ : Type} {offset length : ℕ}
    {item_handler : σ → Option V → ℕ → σ × ℤ} {user : σ} {s : Iteration V σ}
    (h : Sound l) (hrun : sliceForeachValue l offset length item_handler user = some (s, rc)) :
    Sound s.list := by
  obtain ⟨ps, xs, hrep, hlen, hown⟩ := h
  obtain ⟨s', hrun', hcalls, ⟨ps', hrep'⟩, howners⟩ := hrep.sliceForeachValue_eq
    (hrep.length_eq ▸ Nat.le_trans hlen (by decide)) offset length item_handler user
  rw [hrun] at hrun'
  cases hrun'
  refine ⟨ps', _, hrep', ?_, ?_⟩
  · have hfst := congrArg List.length
      (map_fst_visit item_handler user 0 length (xs.drop offset))
    have hkept : (keptValues s.calls).length ≤ s.calls.length := by
      rw [keptValues, List.length_map]
      exact List.length_filter_le _ _
    rw [← hcalls, List.length_map, List.length_take] at hfst
    simp only [List.length_append, List.length_take, List.length_drop] at hfst ⊢
    omega
  · intro b f hf
    obtain ⟨e, he, heq⟩ := howners b f hf
    exact heq.trans (hown b e he)

theorem publicStep_sound {op : PublicOp V} {out : Option (ListOut V)} (h : Sound l)
    (hok : PublicOk l op) (hrun : publicStep l op = some (l', out)) : Sound l' := by
  cases op with
  | call op =>
      obtain ⟨ps, xs, hrep, -, hown⟩ := h
      obtain ⟨hlen, hpos, hends⟩ := hok
      rw [listCount, hrep.length] at hlen
      obtain ⟨r, hcall, heq⟩ := Option.map_eq_some_iff.mp hrun
      cases heq
      obtain ⟨ps', xs', hrep', hlen'⟩ := listStep_represents hrep hlen hpos hcall
      exact ⟨ps', xs', hrep', hlen', ownedBut_nil.mp
        (listStep_ownedBut hrep hlen hpos hends (ownedBut_nil.mpr hown) hcall)⟩
  | sort comparator =>
      obtain ⟨ps, xs, hrep, hlen, hown⟩ := h
      have hlt : ps.length < 2 ^ 31 := hrep.length ▸ hok
      obtain ⟨r, hcall, heq⟩ := Option.map_eq_some_iff.mp hrun
      cases heq
      obtain ⟨l₁, ps₁, ys, hrun₁, hrep₁, -, -, -, hown₁, hperm, -⟩ :=
        hrep.listSort_eq (hrep.owned_of_allOwned hown) hlt comparator
      rw [hcall] at hrun₁
      cases hrun₁
      exact ⟨ps₁, ys, hrep₁, hperm.length_eq ▸ hlen, hown₁ hown⟩
  | foreach codes =>
      obtain ⟨r, hcall, heq⟩ := Option.map_eq_some_iff.mp hrun
      cases heq
      exact sliceForeachValue_sound h hcall
  | sliceForeach offset length codes =>
      obtain ⟨r, hcall, heq⟩ := Option.map_eq_some_iff.mp hrun
      cases heq
      exact sliceForeachValue_sound h hcall

end Step

/-! ## Every run -/

/-- Every entry that is reached from the head has its owner. -/
def OwnersInPlace (l : LinkedList V) : Prop :=
  ∀ n a, walkNext l.entries n l.head = some (some a) →
    ∃ e, l.entries a = some e ∧ e.list = true

/-- What is reached from an entry of the chain is in the chain. -/
theorem Represents.mem_of_walkNext {ps : List Addr} {xs : List (Option V)}
    (h : Represents l ps xs) {n i : ℕ} (hwalk : walkNext l.entries n ps[i]? = some (some a)) :
    a ∈ ps := by
  induction n generalizing i with
  | zero => exact List.mem_of_getElem? (Option.some.inj hwalk)
  | succ n ih =>
      obtain ⟨b, hb, hrest⟩ := Option.bind_eq_some_iff.mp hwalk
      obtain ⟨e, he, hnext⟩ := Option.bind_eq_some_iff.mp hrest
      obtain ⟨e', he', -, hlink, -⟩ := h.entry_at hb
      rw [he] at he'
      cases he'
      rw [hlink] at hnext
      exact ih hnext

/-- In every run of the public calls that links no entry between two others, every entry
has its owner, and sorting the list meets no null pointer. -/
theorem owners_inPlace (ops : List (PublicOp V)) (l : LinkedList V)
    (outs : List (Option (ListOut V))) (hok : StepsMeet publicStep PublicOk listCreate ops)
    (hrun : runSteps publicStep listCreate ops = some (l, outs)) :
    OwnersInPlace l ∧ ∀ comparator, (listSort comparator l).isSome := by
  obtain ⟨ps, xs, hrep, hlen, hown⟩ := invariant_of_runSteps
    (fun _ _ _ _ h hok hstep => publicStep_sound h hok hstep) ops listCreate l outs
    sound_listCreate hok hrun
  have howned : Owned l ps := hrep.owned_of_allOwned hown
  constructor
  · intro n a hwalk
    rw [hrep.head] at hwalk
    exact howned a (hrep.mem_of_walkNext hwalk)
  · intro comparator
    rw [hrep.length_eq] at hlen
    by_cases hlt : ps.length < 2 ^ 31
    · obtain ⟨l', -, -, hsort, -⟩ := hrep.listSort_eq howned hlt comparator
      rw [hsort]
      rfl
    · obtain ⟨l', hsort, -⟩ := hrep.listSort_long (Nat.not_lt.mp hlt) (by omega) comparator
      rw [hsort]
      rfl

/-- Entries are linked at the ends and past the end, moved to the ends, and removed by an
iteration. -/
def endsRun : List (PublicOp ℕ) :=
  [.call (.push (some 5)), .call (.unshift (some 2)), .call (.insert (some 9) 4),
    .call (.move 1 9), .call (.swap 0 9), .sliceForeach 1 2 [-1, 1], .sort ascending.cmp,
    .foreach [1, -2], .call (.fetch 1), .call .count]

theorem owners_inPlace_endsRun :
    ∃ l outs, runSteps publicStep listCreate endsRun = some (l, outs) ∧ OwnersInPlace l ∧
      ∀ comparator, (listSort comparator l).isSome := by
  have hsome : (runSteps publicStep listCreate endsRun).isSome := by decide
  obtain ⟨⟨l, outs⟩, hrun⟩ := Option.isSome_iff_exists.mp hsome
  have hok : StepsMeet publicStep PublicOk listCreate endsRun := by decide
  exact ⟨l, outs, hrun, owners_inPlace endsRun l outs hok hrun⟩

/-- Three values are pushed and a fourth is inserted behind the first. -/
def middleRun : List (PublicOp ℕ) :=
  [.call (.push (some 1)), .call (.push (some 3)), .call (.push (some 0)),
    .call (.insert (some 2) 1)]

/-- The entry that was inserted between two others has no owner, and sorting follows its
null pointer. -/
theorem middle_entry_without_owner :
    ∃ l outs, runSteps publicStep listCreate middleRun = some (l, outs) ∧
      l.listCount = 4 ∧ ¬ OwnersInPlace l ∧ listSort ascending.cmp l = none := by
  have hreads : (runSteps publicStep listCreate middleRun).any fun r =>
      r.1.listCount = 4 ∧ walkNext r.1.entries 1 r.1.head = some (some 3) ∧
        (r.1.entries 3).map ListEntry.list = some false ∧
        (listSort ascending.cmp r.1).isNone := by
    decide
  obtain ⟨⟨l, outs⟩, hrun, hfacts⟩ := (Option.any_eq_true _ _).mp hreads
  obtain ⟨hcount, hwalk, hlist, hsort⟩ := of_decide_eq_true hfacts
  refine ⟨l, outs, hrun, hcount, ?_, Option.isNone_iff_eq_none.mp hsort⟩
  intro howners
  obtain ⟨e, he, hown⟩ := howners 1 3 hwalk
  rw [he, Option.map_some, hown] at hlist
  cases hlist

end LinkedList
end LibHL
