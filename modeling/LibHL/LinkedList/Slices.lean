import LibHL.LinkedList.Invariant
import LibHL.Support.Run
import Mathlib.Data.Finset.Card
import Mathlib.Data.Finset.Range

/-!
# The slices of a list

A list keeps a second chain, of the slices that have been created on it.  A slice is
registered at the end of the chain.  When it is destroyed, its entry is found from the
beginning of the chain and unlinked: the code takes it for granted that an entry with one
before it has one behind it, and leaves the link back from the entry behind the first one
as it was.
-/

namespace LibHL

/-- `slice_t`, without the pointer to the list. -/
structure Slice where
  offset : ℕ
  length : ℕ
  deriving DecidableEq

/-- The part of `linked_list_t` that the slice functions use, with the heaps of the entries
of the registry and of the slices. -/
structure SliceRegistry where
  entries : Heap (ListEntry Addr)
  sliceCells : Heap Slice
  slices : Option Addr

namespace SliceRegistry

open LinkedList (links)

/-- The registry of a new list. -/
def create : SliceRegistry := ⟨Heap.empty, Heap.empty, none⟩

/-- `while (cur->next) cur = cur->next`. -/
def lastEntry (es : Heap (ListEntry Addr)) : ℕ → Addr → Option Addr
  | 0, _ => none
  | fuel + 1, cur => do
      let e ← es cur
      match e.next with
      | none => some cur
      | some next => lastEntry es fuel next

/-- `slice_create`. -/
def sliceCreate (r : SliceRegistry) (offset length : ℕ) : Option (SliceRegistry × Addr) := do
  let (cells, slice) := r.sliceCells.alloc ⟨offset, length⟩
  let (es, e) := r.entries.alloc { list := false, prev := none, next := none, value := some slice }
  match r.slices with
  | none => some (⟨es, cells, some e⟩, slice)
  | some cur => do
      let last ← lastEntry es (es.brk + 1) cur
      let es ← es.modify last fun c => { c with next := some e }
      let es ← es.modify e fun c => { c with prev := some last }
      some (⟨es, cells, some cur⟩, slice)

/-- The search of `slice_destroy`: the entry of the slice and the one before it. -/
def findSlice (es : Heap (ListEntry Addr)) (slice : Addr) :
    ℕ → Option Addr → Option Addr → Option (Option (Option Addr × Addr))
  | _, _, none => some none
  | 0, _, some _ => none
  | fuel + 1, prev, some cur => do
      let c ← es cur
      if c.value = some slice then some (some (prev, cur))
      else findSlice es slice fuel (some cur) c.next

/-- The entry `cur` is taken out of the chain. -/
def unlinkSlice (r : SliceRegistry) (prev : Option Addr) (cur : Addr) : Option SliceRegistry := do
  let c ← r.entries cur
  match prev with
  | some p => do
      let es ← r.entries.modify p fun e => { e with next := c.next }
      -- `cur->next->prev = prev`, without a look at `cur->next`.
      let next ← c.next
      let es ← es.modify next fun e => { e with prev := some p }
      some { r with entries := es }
  | none => some { r with slices := c.next }

/-- `slice_destroy`. -/
def sliceDestroy (r : SliceRegistry) (slice : Addr) : Option SliceRegistry := do
  let _ ← r.sliceCells slice
  let found ← findSlice r.entries slice (r.entries.brk + 1) none r.slices
  let r ←
    match found with
    | none => some r
    | some (prev, cur) => do
        let r ← unlinkSlice r prev cur
        let c ← r.entries cur
        -- `destroy_entry`: entries of the registry have no owner to be removed from.
        let es ← if c.list then none else r.entries.free cur
        some { r with entries := es }
  let cells ← r.sliceCells.free slice
  some { r with sliceCells := cells }

/-- The first loop of `list_destroy`, with the slices it destroys in order. -/
def destroySlices : ℕ → SliceRegistry → Option (SliceRegistry × List Addr)
  | fuel, r =>
      match r.slices, fuel with
      | none, _ => some (r, [])
      | some _, 0 => none
      | some e, fuel + 1 => do
          let c ← r.entries e
          let slice ← c.value
          let r ← sliceDestroy r slice
          let rest ← destroySlices fuel r
          some (rest.1, slice :: rest.2)

/-- What `list_destroy` does to the slices. -/
def listDestroySlices (r : SliceRegistry) : Option (SliceRegistry × List Addr) :=
  destroySlices (r.entries.brk + 1) r

/-! ## Calls -/

/-- The calls on the slices of a list. -/
inductive SliceOp where
  | create (offset length : ℕ)
  | destroy (slice : Addr)

/-- Perform a call; the output is the slice created. -/
def sliceStep (r : SliceRegistry) : SliceOp → Option (SliceRegistry × Option Addr)
  | .create offset length => (sliceCreate r offset length).map fun p => (p.1, some p.2)
  | .destroy slice => (sliceDestroy r slice).map fun r' => (r', none)

/-- What a call does to the slices that are alive, in the order of their creation. -/
def sliceRef (live : List Addr) (op : SliceOp) (o : Option Addr) (live' : List Addr) : Prop :=
  match op with
  | .create _ _ => ∃ slice, o = some slice ∧ slice ∉ live ∧ live' = live ++ [slice]
  | .destroy slice => o = none ∧ live' = live.erase slice

/-! ## The registry -/

/-- The entries `ps` are chained by their `next` pointers, without owner, and hold the
slices `live`, which are those that have not been released. -/
structure Chained (r : SliceRegistry) (live ps : List Addr) : Prop where
  nodup : ps.Nodup
  length_eq : ps.length = live.length
  entry : ∀ i p, ps[i]? = some p → ∃ e, r.entries p = some e ∧ e.list = false ∧
    e.next = ps[i + 1]? ∧ e.value = live[i]?
  head : r.slices = ps[0]?
  distinct : live.Nodup
  alive : ∀ s, (r.sliceCells s).isSome ↔ s ∈ live

/-- The registry is the chain of the live slices, linked in both directions. -/
structure Registered (r : SliceRegistry) (live ps : List Addr) : Prop
    extends Chained r live ps where
  back : ∀ i p e, ps[i]? = some p → r.entries p = some e → e.prev = before ps i

theorem registered_create : Registered create [] [] where
  nodup := List.nodup_nil
  length_eq := rfl
  entry := by simp
  head := rfl
  distinct := List.nodup_nil
  alive := by simp [create]
  back := by simp

variable {r r' : SliceRegistry} {live ps : List Addr} {slice p : Addr} {k : ℕ}

theorem Registered.linked (h : Registered r live ps) : DLinked (links r.entries) ps where
  nodup := h.nodup
  links := by
    intro i a ha
    obtain ⟨e, he, -, hnext, -⟩ := h.entry i a ha
    rw [LinkedList.links, he, Option.map_some, hnext, h.back i a e ha he]

theorem Chained.length_le (h : Chained r live ps) : ps.length ≤ r.entries.brk := by
  rw [← List.toFinset_card_of_nodup h.nodup, ← Finset.card_range r.entries.brk]
  refine Finset.card_le_card fun p hp => ?_
  obtain ⟨i, hi⟩ := List.mem_iff_getElem?.mp (List.mem_toFinset.mp hp)
  obtain ⟨e, he, -⟩ := h.entry i p hi
  exact Finset.mem_range.mpr (Heap.lt_brk_of_eq_some he)

theorem Chained.lt_brk (h : Chained r live ps) (hp : p ∈ ps) : p < r.entries.brk := by
  obtain ⟨i, hi⟩ := List.mem_iff_getElem?.mp hp
  obtain ⟨e, he, -⟩ := h.entry i p hi
  exact Heap.lt_brk_of_eq_some he

/-! ## Creating -/

theorem lastEntry_spec {es : Heap (ListEntry Addr)}
    (hes : ∀ i p, ps[i]? = some p → ∃ e, es p = some e ∧ e.next = ps[i + 1]?) :
    ∀ (fuel i : ℕ) (p : Addr), ps.length - i ≤ fuel → ps[i]? = some p →
      ∃ last, lastEntry es fuel p = some last ∧ ps[ps.length - 1]? = some last := by
  intro fuel
  induction fuel with
  | zero =>
      intro i p hfuel hp
      have := (List.getElem?_eq_some_iff.mp hp).1
      omega
  | succ fuel ih =>
      intro i p hfuel hp
      have hi := (List.getElem?_eq_some_iff.mp hp).1
      obtain ⟨e, he, hnext⟩ := hes i p hp
      by_cases hend : i + 1 < ps.length
      · obtain ⟨last, hlast, hat⟩ := ih (i + 1) _ (by omega) (List.getElem?_eq_getElem hend)
        rw [List.getElem?_eq_getElem hend] at hnext
        exact ⟨last, by simp [lastEntry, he, hnext, hlast], hat⟩
      · have hidx : ps.length - 1 = i := by omega
        rw [List.getElem?_eq_none (Nat.le_of_not_lt hend)] at hnext
        exact ⟨p, by simp [lastEntry, he, hnext], by rw [hidx, hp]⟩

/-- The entries after one was linked behind the last one. -/
theorem Registered.append (h : Registered r live ps) (hslice : slice ∉ live)
    (hentries : ∀ b ∈ ps, ∀ e, r.entries b = some e → r'.entries b =
      some { e with next := if before ps ps.length = some b then some p else e.next })
    (hnew : p ∉ ps) (hcell : r'.entries p = some
      { list := false, prev := before ps ps.length, next := none, value := some slice })
    (hhead : r'.slices = (ps ++ [p])[0]?)
    (halive : ∀ s, (r'.sliceCells s).isSome ↔ s ∈ live ++ [slice]) :
    Registered r' (live ++ [slice]) (ps ++ [p]) := by
  have hins : ps.insertIdx ps.length p = ps ++ [p] := List.insertIdx_length_self
  have hend : ps[ps.length]? = none := List.getElem?_eq_none (Nat.le_refl _)
  have hlinked : DLinked (links r'.entries) (ps ++ [p]) := by
    rw [← hins]
    refine h.linked.insertIdx (Nat.le_refl _) hnew ?_ ?_
    · rw [LinkedList.links, hcell, hend]
      rfl
    · intro b hb
      obtain ⟨i, hi⟩ := List.mem_iff_getElem?.mp hb
      obtain ⟨e, he, -⟩ := h.entry i b hi
      simp [LinkedList.links, hentries b hb e he, he]
  have hentry : ∀ (i : ℕ) (b : Addr), (ps ++ [p])[i]? = some b → ∃ e, r'.entries b = some e ∧
      e.list = false ∧ e.value = (live ++ [slice])[i]? := by
    intro i b hb
    by_cases hi : i < ps.length
    · rw [List.getElem?_append_left hi] at hb
      obtain ⟨e, he, hlist, -, hvalue⟩ := h.entry i b hb
      refine ⟨_, hentries b (List.mem_of_getElem? hb) e he, hlist, ?_⟩
      rw [List.getElem?_append_left (h.length_eq ▸ hi)]
      exact hvalue
    · obtain rfl : i = ps.length := by
        have := (List.getElem?_eq_some_iff.mp hb).1
        rw [List.length_append, List.length_singleton] at this
        omega
      rw [List.getElem?_concat_length] at hb
      cases hb
      refine ⟨_, hcell, rfl, ?_⟩
      rw [h.length_eq, List.getElem?_concat_length]
  have hlinks : ∀ (i : ℕ) (b : Addr) e, (ps ++ [p])[i]? = some b → r'.entries b = some e →
      e.prev = before (ps ++ [p]) i ∧ e.next = (ps ++ [p])[i + 1]? := by
    intro i b e hb he
    have hlink := hlinked.links i b hb
    rw [LinkedList.links, he, Option.map_some, Option.some.injEq, Links.mk.injEq] at hlink
    exact hlink
  refine ⟨⟨hlinked.nodup, ?_, ?_, hhead, ?_, halive⟩, fun i b e hb he => (hlinks i b e hb he).1⟩
  · rw [List.length_append, List.length_append, h.length_eq]
    rfl
  · intro i b hb
    obtain ⟨e, he, hlist, hvalue⟩ := hentry i b hb
    exact ⟨e, he, hlist, (hlinks i b e hb he).2, hvalue⟩
  · exact List.nodup_append.mpr ⟨h.distinct, List.nodup_singleton _, fun a ha b hb => by
      rw [List.mem_singleton.mp hb]
      exact fun heq => hslice (heq ▸ ha)⟩

theorem sliceCreate_spec (h : Registered r live ps) (offset length : ℕ) :
    ∃ r' slice p, sliceCreate r offset length = some (r', slice) ∧ slice ∉ live ∧
      Registered r' (live ++ [slice]) (ps ++ [p]) := by
  have hslice : r.sliceCells.brk ∉ live := by
    intro hmem
    have hsome := (h.alive _).mpr hmem
    rw [Heap.brk_apply] at hsome
    cases hsome
  have hnew : r.entries.brk ∉ ps := fun hmem => Nat.lt_irrefl _ (h.toChained.lt_brk hmem)
  have halive : ∀ s, ((r.sliceCells.alloc ⟨offset, length⟩).1 s).isSome ↔
      s ∈ live ++ [r.sliceCells.brk] := by
    intro s
    rw [Heap.alloc_apply, List.mem_append, List.mem_singleton, ← h.alive]
    by_cases hs : s = r.sliceCells.brk
    · simp [hs]
    · simp [hs]
  have hkeep : ∀ b ∈ ps, ∀ v, (r.entries.alloc v).1 b = r.entries b := by
    intro b hb v
    exact if_neg (Nat.ne_of_lt (h.toChained.lt_brk hb))
  set cell : ListEntry Addr :=
    { list := false, prev := none, next := none, value := some r.sliceCells.brk } with hcelldef
  rcases List.eq_nil_or_concat ps with rfl | ⟨qs, q, rfl⟩
  · refine ⟨⟨(r.entries.alloc cell).1, (r.sliceCells.alloc ⟨offset, length⟩).1,
      some r.entries.brk⟩, r.sliceCells.brk, r.entries.brk, ?_, hslice, ?_⟩
    · have hhead : r.slices = none := h.head
      simp [sliceCreate, hhead, hcelldef]
    · exact h.append hslice (fun b hb => absurd hb List.not_mem_nil) hnew
        (by simp [Heap.alloc_apply, hcelldef]) rfl halive
  · rw [List.concat_eq_append] at h hnew hkeep ⊢
    have hlast : (qs ++ [q])[(qs ++ [q]).length - 1]? = some q := by simp
    have hbefore : before (qs ++ [q]) (qs ++ [q]).length = some q := by simp [before]
    obtain ⟨head, hhead⟩ : ∃ a, (qs ++ [q])[0]? = some a :=
      ⟨_, List.getElem?_eq_getElem (by simp)⟩
    have hq : q ≠ r.entries.brk := fun heq => hnew (heq ▸ List.mem_append_right _ (by simp))
    obtain ⟨e, he, -, hnext, -⟩ := h.entry _ q hlast
    have hchain : ∀ i b, (qs ++ [q])[i]? = some b →
        ∃ e, (r.entries.alloc cell).1 b = some e ∧ e.next = (qs ++ [q])[i + 1]? := by
      intro i b hb
      obtain ⟨e, he, -, hnext, -⟩ := h.entry i b hb
      exact ⟨e, (hkeep b (List.mem_of_getElem? hb) cell).trans he, hnext⟩
    obtain ⟨last, hwalk, hat⟩ := lastEntry_spec hchain ((r.entries.alloc cell).1.brk + 1) 0 head
      (by have := h.toChained.length_le; rw [Heap.alloc_brk]; omega) hhead
    obtain rfl : last = q := Option.some.inj (hat.symm.trans hlast)
    have he' : (r.entries.alloc cell).1 last = some e :=
      (hkeep last (List.mem_of_getElem? hlast) cell).trans he
    set es₁ := (r.entries.alloc cell).1.put last { e with next := some r.entries.brk } with hes₁
    have hcell₁ : es₁ r.entries.brk = some cell := by
      rw [hes₁, Heap.put_of_ne (Ne.symm hq)]
      exact if_pos rfl
    refine ⟨⟨es₁.put r.entries.brk { cell with prev := some last },
      (r.sliceCells.alloc ⟨offset, length⟩).1, some head⟩, r.sliceCells.brk, r.entries.brk,
      ?_, hslice, ?_⟩
    · have hslices : r.slices = some head := h.head.trans hhead
      have hbrk : (r.entries.alloc cell).1.brk = r.entries.brk + 1 := rfl
      rw [hbrk] at hwalk
      simp only [sliceCreate, hslices, Heap.alloc_snd, Heap.alloc_brk, Option.bind_eq_bind,
        ← hcelldef, hwalk, Option.bind_some, Heap.modify, he', Option.map_some, ← hes₁, hcell₁]
    · refine h.append hslice ?_ hnew ?_ ?_ halive
      · intro b hb f hf
        have hbbrk : b ≠ r.entries.brk := fun heq => hnew (heq ▸ hb)
        show (es₁.put _ _) b = _
        rw [Heap.put_of_ne hbbrk, hbefore]
        by_cases hbq : b = last
        · subst hbq
          rw [he] at hf
          cases hf
          rw [hes₁, Heap.put_self he', if_pos rfl]
        · rw [hes₁, Heap.put_of_ne hbq, hkeep b hb, hf, if_neg fun heq =>
            hbq (Option.some.inj heq).symm]
      · show (es₁.put _ _) _ = _
        rw [Heap.put_self hcell₁, hbefore]
      · show some head = _
        rw [List.getElem?_append_left (by simp), hhead]

/-! ## Destroying -/

theorem findSlice_spec (h : Chained r live ps) (hk : live[k]? = some slice)
    (hp : ps[k]? = some p) : ∀ fuel i, i ≤ k → k - i < fuel →
    findSlice r.entries slice fuel (before ps i) ps[i]? = some (some (before ps k, p)) := by
  intro fuel
  induction fuel with
  | zero => exact fun i _ hfuel => absurd hfuel (Nat.not_lt_zero _)
  | succ fuel ih =>
      intro i hik hfuel
      have hi : i < ps.length := Nat.lt_of_le_of_lt hik (List.getElem?_eq_some_iff.mp hp).1
      have hat : ps[i]? = some ps[i] := List.getElem?_eq_getElem hi
      obtain ⟨e, he, -, hnext, hvalue⟩ := h.entry i _ hat
      rw [hat]
      by_cases heq : i = k
      · subst heq
        have hpi : ps[i] = p := Option.some.inj (hat.symm.trans hp)
        rw [hk] at hvalue
        rw [hpi] at he
        simp [findSlice, he, hvalue, hpi]
      · have hne : e.value ≠ some slice := by
          rw [hvalue]
          exact fun hsame => heq (index_unique h.distinct hsame hk)
        have hrest := ih (i + 1) (by omega) (by omega)
        rw [before_succ, hat] at hrest
        simp only [findSlice, he, Option.bind_eq_bind, Option.bind_some, if_neg hne, hnext]
        exact hrest

theorem findSlice_of_chained (h : Chained r live ps) (hk : live[k]? = some slice)
    (hp : ps[k]? = some p) : findSlice r.entries slice (r.entries.brk + 1) none r.slices =
      some (some (before ps k, p)) := by
  have hlt := (List.getElem?_eq_some_iff.mp hp).1
  have hle := h.length_le
  rw [h.head]
  exact findSlice_spec h hk hp _ 0 (Nat.zero_le k) (by omega)

theorem alive_kill (slice : Addr) {cells : Heap Slice} (hdistinct : live.Nodup)
    (halive : ∀ s, (cells s).isSome ↔ s ∈ live) (s : Addr) :
    ((cells.kill slice) s).isSome ↔ s ∈ live.erase slice := by
  rw [hdistinct.mem_erase_iff, ← halive, Heap.kill_apply]
  by_cases hs : s = slice
  · simp [hs]
  · simp [hs]

theorem sliceDestroy_first (h : Chained r (slice :: live) (p :: ps)) :
    ∃ r', sliceDestroy r slice = some r' ∧ Chained r' live ps ∧
      ∀ b, b ≠ p → r'.entries b = r.entries b := by
  have hfind := findSlice_of_chained h (k := 0) rfl rfl
  obtain ⟨e, he, hlist, hnext, -⟩ := h.entry 0 p rfl
  obtain ⟨c, hc⟩ := Option.isSome_iff_exists.mp ((h.alive slice).mpr List.mem_cons_self)
  obtain ⟨hpnot, hnodup⟩ := List.nodup_cons.mp h.nodup
  obtain ⟨-, hdistinct⟩ := List.nodup_cons.mp h.distinct
  have hkeep : ∀ b, b ≠ p → (r.entries.kill p) b = r.entries b := fun b hb => if_neg hb
  refine ⟨⟨r.entries.kill p, r.sliceCells.kill slice, e.next⟩, ?_, ?_, hkeep⟩
  · simp only [sliceDestroy, hc, hfind, before_zero, unlinkSlice, he, hlist, Option.bind_eq_bind,
      Option.bind_some, Heap.free_eq_some he, Heap.free_eq_some hc, Bool.false_eq_true, if_false]
  · refine ⟨hnodup, Nat.succ.inj h.length_eq, ?_, hnext, hdistinct, ?_⟩
    · intro i b hb
      have hne : b ≠ p := fun heq => hpnot (heq ▸ List.mem_of_getElem? hb)
      obtain ⟨f, hf, hrest⟩ := h.entry (i + 1) b hb
      exact ⟨f, (hkeep b hne).trans hf, hrest⟩
    · intro s
      have hs := alive_kill slice h.distinct h.alive s
      rwa [List.erase_cons_head] at hs

/-- Destroying a slice that has others before and behind it. -/
theorem sliceDestroy_inside (h : Registered r live ps) (hk : live[k]? = some slice)
    (hpos : 0 < k) (hlt : k + 1 < ps.length) :
    ∃ r', sliceDestroy r slice = some r' ∧
      Registered r' (live.eraseIdx k) (ps.eraseIdx k) := by
  have hklt : k < ps.length := Nat.lt_of_succ_lt hlt
  obtain ⟨p, hp⟩ : ∃ p, ps[k]? = some p := ⟨_, List.getElem?_eq_getElem hklt⟩
  obtain ⟨q, hq⟩ : ∃ q, ps[k - 1]? = some q := ⟨_, List.getElem?_eq_getElem (by omega)⟩
  obtain ⟨n, hn⟩ : ∃ n, ps[k + 1]? = some n := ⟨_, List.getElem?_eq_getElem hlt⟩
  have hbefore : before ps k = some q := by rw [before, if_neg (Nat.ne_of_gt hpos), hq]
  have hfind := findSlice_of_chained h.toChained hk hp
  obtain ⟨e, he, hlist, hnext, -⟩ := h.entry k p hp
  obtain ⟨f, hf, -⟩ := h.entry (k - 1) q hq
  obtain ⟨g, hg, -⟩ := h.entry (k + 1) n hn
  obtain ⟨c, hc⟩ := Option.isSome_iff_exists.mp ((h.alive slice).mpr (List.mem_of_getElem? hk))
  have hpq : p ≠ q := by
    rintro rfl
    have := index_unique h.nodup hp hq
    omega
  have hpn : p ≠ n := by
    rintro rfl
    have := index_unique h.nodup hp hn
    omega
  have hqn : q ≠ n := by
    rintro rfl
    have := index_unique h.nodup hq hn
    omega
  set es := (r.entries.put q { f with next := e.next }).put n { g with prev := some q } with hes
  have hen : (r.entries.put q { f with next := e.next }) n = some g := by
    rw [Heap.put_of_ne (Ne.symm hqn), hg]
  have hep : es p = some e := by
    rw [hes, Heap.put_of_ne hpn, Heap.put_of_ne hpq, he]
  have hcells : ∀ b ∈ ps, b ≠ p → ∀ x, r.entries b = some x → (es.kill p) b =
      some { x with
        prev := if ps[k + 1]? = some b then before ps k else x.prev
        next := if before ps k = some b then ps[k + 1]? else x.next } := by
    intro b _ hbp x hx
    rw [Heap.kill_apply, if_neg hbp, hes, hbefore, hn]
    by_cases hbn : b = n
    · subst hbn
      rw [Heap.put_self hen, if_pos rfl, if_neg fun heq => hqn (Option.some.inj heq)]
      rw [hg] at hx
      cases hx
      rfl
    · rw [Heap.put_of_ne hbn, if_neg fun heq => hbn (Option.some.inj heq).symm]
      by_cases hbq : b = q
      · subst hbq
        rw [Heap.put_self hf, if_pos rfl, hnext, hn]
        rw [hf] at hx
        cases hx
        rfl
      · rw [Heap.put_of_ne hbq, hx, if_neg fun heq => hbq (Option.some.inj heq).symm]
  have hlinked : DLinked (links (es.kill p)) (ps.eraseIdx k) := by
    refine h.linked.eraseIdx ?_
    intro b hb hne
    have hbp : b ≠ p := fun heq => hne (heq ▸ hp)
    obtain ⟨i, hi⟩ := List.mem_iff_getElem?.mp hb
    obtain ⟨x, hx, -⟩ := h.entry i b hi
    rw [LinkedList.links, LinkedList.links, hcells b hb hbp x hx, hx]
    rfl
  have hindex : ∀ (i : ℕ) (b : Addr), (ps.eraseIdx k)[i]? = some b →
      ∃ j, ps[j]? = some b ∧ j ≠ k ∧ live[j]? = (live.eraseIdx k)[i]? := by
    intro i b hb
    by_cases hik : i < k
    · rw [List.getElem?_eraseIdx_of_lt hik] at hb
      exact ⟨i, hb, Nat.ne_of_lt hik, (List.getElem?_eraseIdx_of_lt hik).symm⟩
    · have hki := Nat.le_of_not_lt hik
      rw [List.getElem?_eraseIdx_of_ge hki] at hb
      exact ⟨i + 1, hb, by omega, (List.getElem?_eraseIdx_of_ge hki).symm⟩
  have hlinks : ∀ (i : ℕ) (b : Addr) x, (ps.eraseIdx k)[i]? = some b → (es.kill p) b = some x →
      x.prev = before (ps.eraseIdx k) i ∧ x.next = (ps.eraseIdx k)[i + 1]? := by
    intro i b x hb hx
    have hlink := hlinked.links i b hb
    rw [LinkedList.links, hx, Option.map_some, Option.some.injEq, Links.mk.injEq] at hlink
    exact hlink
  refine ⟨⟨es.kill p, r.sliceCells.kill slice, r.slices⟩, ?_,
    ⟨hlinked.nodup, ?_, ?_, ?_, h.distinct.eraseIdx k, ?_⟩,
    fun i b x hb hx => (hlinks i b x hb hx).1⟩
  · have hunlink : unlinkSlice r (some q) p = some { r with entries := es } := by
      simp only [unlinkSlice, he, Heap.modify, hf, Option.map_some, Option.bind_eq_bind,
        Option.bind_some, hnext, hn]
      rw [← hn, ← hnext, hen]
      rfl
    simp only [sliceDestroy, hc, hfind, hbefore, hunlink, Option.bind_eq_bind, Option.bind_some,
      hep, hlist, Bool.false_eq_true, if_false, Heap.free_eq_some hep, Heap.free_eq_some hc]
  · rw [List.length_eraseIdx_of_lt hklt, List.length_eraseIdx_of_lt (h.length_eq ▸ hklt),
      h.length_eq]
  · intro i b hb
    obtain ⟨j, hj, hjk, hlive⟩ := hindex i b hb
    obtain ⟨x, hx, hxlist, -, hxvalue⟩ := h.entry j b hj
    have hbp : b ≠ p := fun heq => hjk (index_unique h.nodup (heq ▸ hj) hp)
    have hcell := hcells b (List.mem_of_getElem? hj) hbp x hx
    exact ⟨_, hcell, hxlist, (hlinks i b _ hb hcell).2, hxvalue.trans hlive⟩
  · rw [List.getElem?_eraseIdx_of_lt hpos]
    exact h.head
  · intro s
    have hs := alive_kill slice h.distinct h.alive s
    have hklive : k < live.length := h.length_eq ▸ hklt
    have hat : live[k] = slice := Option.some.inj ((List.getElem?_eq_getElem hklive).symm.trans hk)
    rwa [← hat, h.distinct.erase_getElem, hat] at hs

/-- Destroying the last slice of several reads a null pointer. -/
theorem sliceDestroy_last (h : Chained r live ps) (hk : live[k]? = some slice)
    (hpos : 0 < k) (hend : k + 1 = ps.length) : sliceDestroy r slice = none := by
  obtain ⟨p, hp⟩ : ∃ p, ps[k]? = some p := ⟨_, List.getElem?_eq_getElem (by omega)⟩
  obtain ⟨q, hq⟩ : ∃ q, ps[k - 1]? = some q := ⟨_, List.getElem?_eq_getElem (by omega)⟩
  have hbefore : before ps k = some q := by rw [before, if_neg (Nat.ne_of_gt hpos), hq]
  have hfind := findSlice_of_chained h hk hp
  obtain ⟨e, he, -, hnext, -⟩ := h.entry k p hp
  obtain ⟨f, hf, -⟩ := h.entry (k - 1) q hq
  obtain ⟨c, hc⟩ := Option.isSome_iff_exists.mp ((h.alive slice).mpr (List.mem_of_getElem? hk))
  rw [List.getElem?_eq_none (Nat.le_of_eq hend.symm)] at hnext
  have hunlink : unlinkSlice r (some q) p = none := by
    simp [unlinkSlice, he, Heap.modify, hf, hnext]
  simp [sliceDestroy, hc, hfind, hbefore, hunlink]

/-! ## Destroying all of them -/

/-- The loop of `list_destroy` always takes the first slice, and never looks back. -/
theorem destroySlices_spec : ∀ (live ps : List Addr) (r : SliceRegistry) (fuel : ℕ),
    Chained r live ps → ps.length ≤ fuel →
    ∃ r', destroySlices fuel r = some (r', live) ∧ r'.slices = none ∧
      ∀ s, r'.sliceCells s = none := by
  intro live
  induction live with
  | nil =>
      intro ps r fuel h _
      obtain rfl : ps = [] := List.eq_nil_of_length_eq_zero h.length_eq
      have hhead : r.slices = none := h.head
      refine ⟨r, ?_, hhead, ?_⟩
      · unfold destroySlices
        simp [hhead]
      · intro s
        by_contra hsome
        exact List.not_mem_nil ((h.alive s).mp (Option.isSome_iff_ne_none.mpr hsome))
  | cons slice live ih =>
      intro ps r fuel h hfuel
      cases ps with
      | nil => exact absurd h.length_eq nofun
      | cons p ps =>
          cases fuel with
          | zero => exact absurd hfuel (Nat.not_succ_le_zero _)
          | succ fuel =>
              obtain ⟨e, he, -, -, hvalue⟩ := h.entry 0 p rfl
              have hhead : r.slices = some p := h.head
              have hslice : e.value = some slice := hvalue
              obtain ⟨r₁, hrun, h₁, -⟩ := sliceDestroy_first h
              obtain ⟨r₂, hrest, hnone, hdead⟩ := ih ps r₁ fuel h₁ (Nat.le_of_succ_le_succ hfuel)
              refine ⟨r₂, ?_, hnone, hdead⟩
              unfold destroySlices
              simp [hhead, he, hslice, hrun, hrest]

/-! ## Runs -/

/-- The slices found along the chain. -/
def readSlices (es : Heap (ListEntry Addr)) : ℕ → Option Addr → List Addr
  | 0, _ => []
  | _, none => []
  | fuel + 1, some p =>
      match es p with
      | none => []
      | some e => e.value.toList ++ readSlices es fuel e.next

/-- The registered slices. -/
def registered (r : SliceRegistry) : List Addr :=
  readSlices r.entries (r.entries.brk + 1) r.slices

theorem Chained.registered_eq (h : Chained r live ps) : registered r = live := by
  have hread : ∀ fuel i, ps.length - i < fuel →
      readSlices r.entries fuel ps[i]? = live.drop i := by
    intro fuel
    induction fuel with
    | zero => exact fun i hfuel => absurd hfuel (Nat.not_lt_zero _)
    | succ fuel ih =>
        intro i hfuel
        by_cases hi : i < ps.length
        · obtain ⟨e, he, -, hnext, hvalue⟩ := h.entry i _ (List.getElem?_eq_getElem hi)
          have hilive : i < live.length := h.length_eq ▸ hi
          rw [List.getElem?_eq_getElem hi, readSlices, he]
          simp only [hvalue, hnext, List.getElem?_eq_getElem hilive, Option.toList_some]
          rw [ih (i + 1) (by omega), List.singleton_append, List.getElem_cons_drop]
        · have hge := Nat.le_of_not_lt hi
          rw [List.getElem?_eq_none hge, List.drop_eq_nil_of_le (h.length_eq ▸ hge)]
          rfl
  have hle := h.length_le
  rw [registered, h.head, hread _ 0 (by omega), List.drop_zero]

/-- A slice is destroyed if it is the only one, or neither the first nor the last of those
that are registered. -/
def DestroysInside (r : SliceRegistry) : SliceOp → Prop
  | .create _ _ => True
  | .destroy slice => slice ∈ registered r ∧ (registered r = [slice] ∨
      (registered r).head? ≠ some slice ∧ (registered r).getLast? ≠ some slice)

instance (r : SliceRegistry) : ∀ op, Decidable (DestroysInside r op)
  | .create _ _ => isTrue trivial
  | .destroy _ => inferInstanceAs (Decidable (_ ∧ _))

theorem sliceDestroy_keeps (h : Registered r live ps) (hok : DestroysInside r (.destroy slice)) :
    ∃ r' ps', sliceDestroy r slice = some r' ∧ Registered r' (live.erase slice) ps' := by
  obtain ⟨hmem, hcase⟩ := hok
  rw [h.toChained.registered_eq] at hmem hcase
  rcases hcase with rfl | ⟨hfirst, hlast⟩
  · obtain ⟨p, rfl⟩ := List.length_eq_one_iff.mp h.length_eq
    obtain ⟨r', hrun, h', -⟩ := sliceDestroy_first h.toChained
    rw [List.erase_cons_head]
    exact ⟨r', [], hrun, h', by simp⟩
  · obtain ⟨k, hk⟩ := List.mem_iff_getElem?.mp hmem
    have hklt := (List.getElem?_eq_some_iff.mp hk).1
    have hpos : 0 < k := by
      rcases Nat.eq_zero_or_pos k with rfl | hpos
      · exact absurd (List.head?_eq_getElem? ▸ hk) hfirst
      · exact hpos
    have hend : k + 1 < ps.length := by
      rw [h.length_eq]
      rcases Nat.lt_or_eq_of_le hklt with hlt | heq
      · exact hlt
      · have hidx : live.length - 1 = k := by omega
        rw [List.getLast?_eq_getElem?, hidx] at hlast
        exact absurd hk hlast
    obtain ⟨r', hrun, h'⟩ := sliceDestroy_inside h hk hpos hend
    have hat : live[k] = slice := Option.some.inj ((List.getElem?_eq_getElem hklt).symm.trans hk)
    have herase : live.erase slice = live.eraseIdx k := by
      rw [← hat, h.distinct.erase_getElem]
    rw [herase]
    exact ⟨r', _, hrun, h'⟩

/-- Any other slice cannot be destroyed without damage to the registry. -/
theorem sliceDestroy_keeps_iff (h : Registered r live ps) (hmem : slice ∈ live) :
    (∃ r' ps', sliceDestroy r slice = some r' ∧ Registered r' (live.erase slice) ps') ↔
      DestroysInside r (.destroy slice) := by
  constructor
  · rintro ⟨r', ps', hrun, h'⟩
    rw [DestroysInside, h.toChained.registered_eq]
    refine ⟨hmem, ?_⟩
    by_contra hnot
    obtain ⟨hne, hend⟩ := not_or.mp hnot
    by_cases hfirst : live.head? = some slice
    · -- The new first entry still points back.
      obtain ⟨rest, rfl⟩ := List.head?_eq_some_iff.mp hfirst
      cases ps with
      | nil => exact absurd h.length_eq nofun
      | cons p ps =>
          obtain ⟨r₁, hrun₁, h₁, hkeep⟩ := sliceDestroy_first h.toChained
          rw [hrun] at hrun₁
          cases hrun₁
          cases ps with
          | nil =>
              have hlen := h.length_eq
              refine hne ?_
              rw [List.eq_nil_of_length_eq_zero (Nat.succ.inj hlen).symm]
          | cons q ps =>
              have hqp : q ≠ p := fun heq =>
                (List.nodup_cons.mp h.nodup).1 (heq ▸ List.mem_cons_self)
              obtain ⟨e, he, -⟩ := h.entry 1 q rfl
              have hback := h.back 1 q e rfl he
              have hhead : ps'[0]? = some q := h'.head.symm.trans h₁.head
              have hnone := h'.back 0 q e hhead ((hkeep q hqp).trans he)
              rw [hback] at hnone
              cases hnone
    · have hlast : live.getLast? = some slice := by
        by_contra hlast
        exact hend ⟨hfirst, hlast⟩
      rw [List.getLast?_eq_getElem?] at hlast
      have hlt := (List.getElem?_eq_some_iff.mp hlast).1
      have hpos : 0 < live.length - 1 := by
        rcases Nat.eq_zero_or_pos (live.length - 1) with hzero | hpos
        · rw [hzero, ← List.head?_eq_getElem?] at hlast
          exact absurd hlast hfirst
        · exact hpos
      have hnone := sliceDestroy_last h.toChained hlast hpos (by rw [h.length_eq]; omega)
      rw [hnone] at hrun
      cases hrun
  · exact sliceDestroy_keeps h

theorem sliceStep_refines (r : SliceRegistry) (live : List Addr) (op : SliceOp)
    (h : ∃ ps, Registered r live ps) (hok : DestroysInside r op) :
    ∃ r' o live', sliceStep r op = some (r', o) ∧ sliceRef live op o live' ∧
      ∃ ps', Registered r' live' ps' := by
  obtain ⟨ps, h⟩ := h
  cases op with
  | create offset length =>
      obtain ⟨r', slice, p, hrun, hnew, h'⟩ := sliceCreate_spec h offset length
      refine ⟨r', some slice, live ++ [slice], ?_, ⟨slice, rfl, hnew, rfl⟩, _, h'⟩
      rw [sliceStep, hrun]
      rfl
  | destroy slice =>
      obtain ⟨r', ps', hrun, h'⟩ := sliceDestroy_keeps h hok
      refine ⟨r', none, live.erase slice, ?_, ⟨rfl, rfl⟩, ps', h'⟩
      rw [sliceStep, hrun]
      rfl

/-- In every run that destroys a slice only if it is the only one, or neither the first nor
the last, the registry is the chain of the live slices in the order of their creation,
linked in both directions.  What remains is destroyed with the list, each slice once. -/
theorem slices_stay_registered (ops : List SliceOp)
    (hmeet : StepsMeet sliceStep DestroysInside create ops) :
    ∃ r outs live ps, runSteps sliceStep create ops = some (r, outs) ∧
      RefRuns sliceRef [] ops outs live ∧ Registered r live ps ∧
      ∃ r', listDestroySlices r = some (r', live) ∧ r'.slices = none ∧
        ∀ s, r'.sliceCells s = none := by
  obtain ⟨r, outs, live, hrun, href, ps, h⟩ := runSteps_refines_choice_of_meet sliceStep_refines
    ops create [] ⟨[], registered_create⟩ hmeet
  have hfuel := h.toChained.length_le
  exact ⟨r, outs, live, ps, hrun, href, h,
    destroySlices_spec live ps r _ h.toChained (Nat.le_succ_of_le hfuel)⟩

/-- Three slices are created, the second one is destroyed, and another one is created. -/
def middleRun : List SliceOp := [.create 0 2, .create 1 3, .create 4 1, .destroy 1, .create 2 2]

theorem slices_stay_registered_middleRun :
    ∃ r outs live ps, runSteps sliceStep create middleRun = some (r, outs) ∧
      RefRuns sliceRef [] middleRun outs live ∧ Registered r live ps ∧
      ∃ r', listDestroySlices r = some (r', live) ∧ r'.slices = none ∧
        ∀ s, r'.sliceCells s = none :=
  slices_stay_registered middleRun (by decide)

/-- Of two slices, destroying the second one reads a null pointer, and destroying the first
one leaves the second one with a link back to the released entry. -/
theorem end_slices_break_registry :
    runSteps sliceStep create [.create 0 2, .create 1 3, .destroy 1] = none ∧
      ∀ r outs, runSteps sliceStep create [.create 0 2, .create 1 3, .destroy 0] =
        some (r, outs) → registered r = [1] ∧ ∀ live ps, ¬ Registered r live ps := by
  refine ⟨by decide, fun r outs hrun => ?_⟩
  have hanswer : (runSteps sliceStep create [.create 0 2, .create 1 3, .destroy 0]).map
      (fun q => (registered q.1, q.1.slices, (q.1.entries 1).map ListEntry.prev)) =
        some ([1], some 1, some (some 0)) := by decide
  rw [hrun, Option.map_some, Option.some.injEq, Prod.mk.injEq, Prod.mk.injEq] at hanswer
  obtain ⟨hregistered, hhead, hprev⟩ := hanswer
  refine ⟨hregistered, fun live ps h => ?_⟩
  obtain ⟨e, he, hback⟩ := Option.map_eq_some_iff.mp hprev
  have hnone := h.back 0 1 e (h.head.symm.trans hhead) he
  rw [hback] at hnone
  cases hnone

end SliceRegistry
end LibHL
