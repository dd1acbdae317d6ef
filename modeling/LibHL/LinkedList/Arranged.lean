import LibHL.LinkedList.SortModel
import LibHL.LinkedList.Invariant
import LibHL.Support.ChainCells
import Mathlib.Tactic.Abel

/-!
# Lists whose entries all have an owner

For sorting, a list is the sequence of its entries with their values.  All of them carry
the owner pointer, and what else lives in the heap is left alone.  The three ways in which
the partition loop rearranges a list are operations on that sequence.
-/

namespace LibHL
namespace LinkedList

variable {V : Type}

/-- The cell of an entry that has its owner. -/
def ownedCell (prev next : Option Addr) (v : Option V) : ListEntry V :=
  { list := true, prev := prev, next := next, value := v }

/-- The entries at these addresses have their owner. -/
def Owned (l : LinkedList V) (ps : List Addr) : Prop :=
  ∀ a ∈ ps, ∃ e, l.entries a = some e ∧ e.list = true

/-- Every entry that is alive has its owner. -/
def AllOwned (es : Heap (ListEntry V)) : Prop :=
  ∀ a e, es a = some e → e.list = true

/-- The list is the chain of these entries with these values, all of them owned, and
`rest` is what else lives in the heap. -/
structure Arranged (l : LinkedList V) (cs : List (Addr × Option V))
    (rest : Multiset (Addr × ListEntry V)) : Prop where
  cells : l.entries.cells = chainCells ownedCell none cs none + rest
  head : l.head = firstAddr cs none
  tail : l.tail = lastAddr none cs
  length : l.length = cs.length

variable {l : LinkedList V} {ps : List Addr} {xs : List (Option V)}
  {cs ws ys zs : List (Addr × Option V)} {rest : Multiset (Addr × ListEntry V)}
  {es : Heap (ListEntry V)} {a b p : Addr} {u v : Option V} {next : Option Addr} {k : ℕ}

/-! ## From and to the representation invariant -/

theorem firstAddr_eq_getElem? (cs : List (Addr × Option V)) :
    firstAddr cs none = (cs.map Prod.fst)[0]? := by
  cases cs with
  | nil => rfl
  | cons c cs => rfl

theorem lastAddr_eq_before (cs : List (Addr × Option V)) (ds : List (Addr × Option V)) :
    lastAddr none cs = before ((cs ++ ds).map Prod.fst) cs.length := by
  induction cs using List.reverseRecOn with
  | nil => rfl
  | append_singleton cs c _ =>
      rw [List.length_append, List.length_singleton, before_succ, lastAddr_append,
        List.append_assoc, List.map_append,
        List.getElem?_append_right (by rw [List.length_map]), List.length_map, Nat.sub_self]
      rfl

theorem Represents.arranged (h : Represents l ps xs) (hown : Owned l ps) :
    ∃ rest, Arranged l (ps.zip xs) rest := by
  have hfst : (ps.zip xs).map Prod.fst = ps := List.map_fst_zip (le_of_eq h.length_eq.symm)
  have hsnd : (ps.zip xs).map Prod.snd = xs := List.map_snd_zip (le_of_eq h.length_eq)
  have hnodup : ((ps.zip xs).map Prod.fst).Nodup := hfst.symm ▸ h.linked.nodup
  obtain ⟨rest, hrest⟩ := exists_rest_of_reads ownedCell none none hnodup
    fun before a v behind hcs => by
      have ha : ps[before.length]? = some a := by
        rw [← hfst, hcs, List.map_append, List.getElem?_append_right (by simp)]
        simp
      have hv : xs[before.length]? = some v := by
        rw [← hsnd, hcs, List.map_append, List.getElem?_append_right (by simp)]
        simp
      have hnext : ps[before.length + 1]? = firstAddr behind none := by
        rw [← hfst, hcs, List.map_append, List.getElem?_append_right (by simp),
          firstAddr_eq_getElem?]
        simp
      obtain ⟨e, he, hprev, hnext', hval⟩ := h.entry_at ha
      obtain ⟨f, hf, hlist⟩ := hown a (List.mem_of_getElem? ha)
      rw [he] at hf
      cases hf
      have hprev' : e.prev = lastAddr none before := by
        rw [hprev, lastAddr_eq_before before ((a, v) :: behind), ← hcs, hfst]
      rw [hv, Option.some.injEq] at hval
      rw [he, hval, ← hprev', ← hnext, ← hnext', ownedCell, ← hlist]
  refine ⟨rest, hrest, ?_, ?_, ?_⟩
  · rw [firstAddr_eq_getElem?, hfst, h.head]
  · have hlast := lastAddr_eq_before (ps.zip xs) []
    rw [List.append_nil, hfst, List.length_zip, h.length_eq, Nat.min_self] at hlast
    rw [hlast, h.tail]
  · rw [List.length_zip, h.length_eq, Nat.min_self, h.length]

namespace Arranged

theorem nodup (h : Arranged l cs rest) : (cs.map Prod.fst).Nodup :=
  nodup_of_chainCells h.cells

theorem entry (h : Arranged l (ys ++ (a, v) :: zs) rest) :
    l.entries a = some (ownedCell (lastAddr none ys) (firstAddr zs none) v) :=
  read_of_chainCells h.cells

theorem exists_split (h : (cs.map Prod.fst)[k]? = some a) :
    ∃ ys v zs, cs = ys ++ (a, v) :: zs ∧ ys.length = k := by
  rw [List.getElem?_map] at h
  obtain ⟨⟨b, v⟩, hc, rfl⟩ := Option.map_eq_some_iff.mp h
  obtain ⟨hk, hck⟩ := List.getElem?_eq_some_iff.mp hc
  refine ⟨cs.take k, v, cs.drop (k + 1), ?_, List.length_take_of_le (Nat.le_of_lt hk)⟩
  rw [← hck, List.cons_getElem_drop_succ, List.take_append_drop]

theorem owned (h : Arranged l cs rest) : Owned l (cs.map Prod.fst) := by
  intro a ha
  obtain ⟨k, hk⟩ := List.mem_iff_getElem?.mp ha
  obtain ⟨ys, v, zs, rfl, -⟩ := exists_split hk
  exact ⟨_, h.entry, rfl⟩

theorem allOwned {l' : LinkedList V} {cs' : List (Addr × Option V)} (h : Arranged l cs rest)
    (h' : Arranged l' cs' rest) (hall : AllOwned l.entries) : AllOwned l'.entries := by
  intro a e he
  have hmem := Heap.mem_cells.mpr he
  rw [h'.cells, Multiset.mem_add] at hmem
  rcases hmem with hmem | hmem
  · obtain ⟨ys, v, zs, -, rfl⟩ := mem_chainCells.mp hmem
    rfl
  · apply hall a
    rw [← Heap.mem_cells, h.cells]
    exact Multiset.mem_add.mpr (Or.inr hmem)

theorem represents (h : Arranged l cs rest) (pos : ℕ) :
    Represents { l with cur := none, pos := pos } (cs.map Prod.fst) (cs.map Prod.snd) where
  linked := by
    refine ⟨h.nodup, ?_⟩
    intro i a ha
    obtain ⟨ys, v, zs, rfl, rfl⟩ := exists_split ha
    have hnext : ((ys ++ (a, v) :: zs).map Prod.fst)[ys.length + 1]? = firstAddr zs none := by
      rw [firstAddr_eq_getElem?, List.map_append, List.getElem?_append_right (by simp)]
      simp
    rw [hnext, ← lastAddr_eq_before ys ((a, v) :: zs), links, h.entry]
    rfl
  values := by
    rw [List.map_map, List.map_map]
    apply List.map_congr_left
    intro c hc
    obtain ⟨ys, zs, rfl⟩ := List.append_of_mem hc
    exact congrArg (Option.map ListEntry.value) h.entry
  head := h.head.trans (firstAddr_eq_getElem? cs)
  tail := by
    have hlast := lastAddr_eq_before cs []
    rw [List.append_nil, ← List.length_map Prod.fst] at hlast
    exact h.tail.trans hlast
  length := h.length.trans (List.length_map _).symm
  cursor := fun _ ha => absurd ha (by simp)

end Arranged

/-! ## Relinking -/

/-- Writing the `next` field of the last entry of an initial part. -/
theorem setNext_lastAddr (hs : es.cells = chainCells ownedCell none cs next + rest)
    (new : Option Addr) : ∃ es', setNext es (lastAddr none cs) new = some es' ∧
      es'.cells = chainCells ownedCell none cs new + rest := by
  by_cases hcs : cs = []
  · subst hcs
    exact ⟨es, rfl, hs⟩
  · obtain ⟨a, es', ha, hrun, hs'⟩ :=
      relink_last (f := fun e => { e with next := new }) (fun _ _ _ => rfl) hcs hs
    exact ⟨es', by rw [ha]; exact hrun, hs'⟩

/-- Writing the `prev` field of the first entry of a final part. -/
theorem setPrev_firstAddr {prev : Option Addr}
    (hs : es.cells = chainCells ownedCell prev cs none + rest)
    (new : Option Addr) : ∃ es', setPrev es (firstAddr cs none) new = some es' ∧
      es'.cells = chainCells ownedCell new cs none + rest := by
  by_cases hcs : cs = []
  · subst hcs
    exact ⟨es, rfl, hs⟩
  · obtain ⟨a, es', ha, hrun, hs'⟩ :=
      relink_first (f := fun e => { e with prev := new }) (fun _ _ _ => rfl) hcs hs
    exact ⟨es', by rw [ha]; exact hrun, hs'⟩

/-- Taking an entry out of the chain. -/
theorem unlink_spec
    (hs : es.cells = chainCells ownedCell none (ys ++ (a, v) :: zs) none + rest) :
    ∃ es₁ es₂, setNext es (lastAddr none ys) (firstAddr zs none) = some es₁ ∧
      setPrev es₁ (firstAddr zs none) (lastAddr none ys) = some es₂ ∧
      es₂.cells = {(a, ownedCell (lastAddr none ys) (firstAddr zs none) v)} +
        (chainCells ownedCell none (ys ++ zs) none + rest) := by
  rw [chainCells_append, chainCells_cons, add_assoc] at hs
  obtain ⟨es₁, hrun₁, hs₁⟩ := setNext_lastAddr hs (firstAddr zs none)
  have hs₁' : es₁.cells = chainCells ownedCell (some a) zs none +
      ({(a, ownedCell (lastAddr none ys) (firstAddr zs none) v)} +
        (chainCells ownedCell none ys (firstAddr zs none) + rest)) := by
    rw [hs₁]
    abel
  obtain ⟨es₂, hrun₂, hs₂⟩ := setPrev_firstAddr hs₁' (lastAddr none ys)
  refine ⟨es₁, es₂, hrun₁, hrun₂, ?_⟩
  rw [hs₂, chainCells_append]
  abel

/-- Putting an entry between an initial part and the rest of the chain. -/
theorem linkBefore_spec {e : ListEntry V} (hlist : e.list = true) (hval : e.value = v)
    (hs : es.cells = {(b, e)} + (chainCells ownedCell none (ys ++ (p, u) :: zs) none + rest)) :
    ∃ es₁ es₂ es₃ es₄ es₅, es p = some (ownedCell (lastAddr none ys) (firstAddr zs none) u) ∧
      setNext es (lastAddr none ys) (some b) = some es₁ ∧
      es₁.modify b (fun f => { f with prev := lastAddr none ys }) = some es₂ ∧
      es₂.modify p (fun f => { f with prev := some b }) = some es₃ ∧
      setNext es₃ (lastAddr none ys) (some b) = some es₄ ∧
      es₄.modify b (fun f => { f with next := some p }) = some es₅ ∧
      es₅.cells = chainCells ownedCell none (ys ++ (b, v) :: (p, u) :: zs) none + rest := by
  have hread : es p = some (ownedCell (lastAddr none ys) (firstAddr zs none) u) := by
    have hs' : es.cells = chainCells ownedCell none (ys ++ (p, u) :: zs) none +
        ({(b, e)} + rest) := by
      rw [hs]
      abel
    exact read_of_chainCells hs'
  rw [chainCells_append, chainCells_cons, firstAddr_cons] at hs
  have hs₀ : es.cells = chainCells ownedCell none ys (some p) +
      ({(b, e)} + ({(p, ownedCell (lastAddr none ys) (firstAddr zs none) u)} +
        (chainCells ownedCell (some p) zs none + rest))) := by
    rw [hs]
    abel
  obtain ⟨es₁, hrun₁, hs₁⟩ := setNext_lastAddr hs₀ (some b)
  rw [add_left_comm] at hs₁
  obtain ⟨es₂, hrun₂, hs₂⟩ :=
    Heap.modify_of_cells (fun f => { f with prev := lastAddr none ys }) hs₁
  have hs₂' : es₂.cells = {(p, ownedCell (lastAddr none ys) (firstAddr zs none) u)} +
      (chainCells ownedCell none ys (some b) + ({(b, { e with prev := lastAddr none ys })} +
        (chainCells ownedCell (some p) zs none + rest))) := by
    rw [hs₂]
    abel
  obtain ⟨es₃, hrun₃, hs₃⟩ := Heap.modify_of_cells (fun f => { f with prev := some b }) hs₂'
  rw [add_left_comm] at hs₃
  obtain ⟨es₄, hrun₄, hs₄⟩ := setNext_lastAddr hs₃ (some b)
  have hs₄' : es₄.cells = {(b, { e with prev := lastAddr none ys })} +
      (chainCells ownedCell none ys (some b) +
        ({(p, ownedCell (some b) (firstAddr zs none) u)} +
          (chainCells ownedCell (some p) zs none + rest))) := by
    rw [hs₄]
    simp only [ownedCell]
    abel
  obtain ⟨es₅, hrun₅, hs₅⟩ := Heap.modify_of_cells (fun f => { f with next := some p }) hs₄'
  refine ⟨es₁, es₂, es₃, es₄, es₅, hread, hrun₁, hrun₂, hrun₃, hrun₄, hrun₅, ?_⟩
  have hcell : ({ e with prev := lastAddr none ys, next := some p } : ListEntry V) =
      ownedCell (lastAddr none ys) (some p) v := by
    rw [ownedCell, ← hlist, ← hval]
  rw [hs₅, hcell, chainCells_append, chainCells_cons, chainCells_cons, firstAddr_cons,
    firstAddr_cons]
  abel

/-- Putting an entry between the rest of the chain and a final part. -/
theorem linkBehind_spec {e : ListEntry V} (hlist : e.list = true) (hval : e.value = v)
    (hs : es.cells = {(a, e)} + (chainCells ownedCell none (ys ++ (p, u) :: zs) none + rest)) :
    ∃ es₁ es₂ es₃ es₄ es₅, es p = some (ownedCell (lastAddr none ys) (firstAddr zs none) u) ∧
      setPrev es (firstAddr zs none) (some a) = some es₁ ∧
      es₁.modify a (fun f => { f with next := firstAddr zs none }) = some es₂ ∧
      es₂.modify p (fun f => { f with next := some a }) = some es₃ ∧
      setPrev es₃ (firstAddr zs none) (some a) = some es₄ ∧
      es₄.modify a (fun f => { f with prev := some p }) = some es₅ ∧
      es₅.cells = chainCells ownedCell none (ys ++ (p, u) :: (a, v) :: zs) none + rest := by
  have hread : es p = some (ownedCell (lastAddr none ys) (firstAddr zs none) u) := by
    have hs' : es.cells = chainCells ownedCell none (ys ++ (p, u) :: zs) none +
        ({(a, e)} + rest) := by
      rw [hs]
      abel
    exact read_of_chainCells hs'
  rw [chainCells_append, chainCells_cons, firstAddr_cons] at hs
  have hs₀ : es.cells = chainCells ownedCell (some p) zs none +
      ({(a, e)} + ({(p, ownedCell (lastAddr none ys) (firstAddr zs none) u)} +
        (chainCells ownedCell none ys (some p) + rest))) := by
    rw [hs]
    abel
  obtain ⟨es₁, hrun₁, hs₁⟩ := setPrev_firstAddr hs₀ (some a)
  rw [add_left_comm] at hs₁
  obtain ⟨es₂, hrun₂, hs₂⟩ :=
    Heap.modify_of_cells (fun f => { f with next := firstAddr zs none }) hs₁
  have hs₂' : es₂.cells = {(p, ownedCell (lastAddr none ys) (firstAddr zs none) u)} +
      (chainCells ownedCell (some a) zs none + ({(a, { e with next := firstAddr zs none })} +
        (chainCells ownedCell none ys (some p) + rest))) := by
    rw [hs₂]
    abel
  obtain ⟨es₃, hrun₃, hs₃⟩ := Heap.modify_of_cells (fun f => { f with next := some a }) hs₂'
  rw [add_left_comm] at hs₃
  obtain ⟨es₄, hrun₄, hs₄⟩ := setPrev_firstAddr hs₃ (some a)
  have hs₄' : es₄.cells = {(a, { e with next := firstAddr zs none })} +
      (chainCells ownedCell (some a) zs none +
        ({(p, ownedCell (lastAddr none ys) (some a) u)} +
          (chainCells ownedCell none ys (some p) + rest))) := by
    rw [hs₄]
    simp only [ownedCell]
    abel
  obtain ⟨es₅, hrun₅, hs₅⟩ := Heap.modify_of_cells (fun f => { f with prev := some p }) hs₄'
  refine ⟨es₁, es₂, es₃, es₄, es₅, hread, hrun₁, hrun₂, hrun₃, hrun₄, hrun₅, ?_⟩
  have hcell : ({ e with prev := some p, next := firstAddr zs none } : ListEntry V) =
      ownedCell (some p) (firstAddr zs none) v := by
    rw [ownedCell, ← hlist, ← hval]
  rw [hs₅, hcell, chainCells_append, chainCells_cons, chainCells_cons, firstAddr_cons,
    firstAddr_cons]
  abel

/-! ## The ends of the list -/

theorem firstAddr_eq_some_iff (hp : p ∉ cs.map Prod.fst) :
    firstAddr cs (some p) = some p ↔ cs = [] := by
  cases cs with
  | nil => exact iff_of_true rfl rfl
  | cons c cs =>
      refine iff_of_false (fun heq => hp ?_) (List.cons_ne_nil c cs)
      rw [firstAddr_cons, Option.some.injEq] at heq
      exact heq ▸ List.mem_cons_self

theorem lastAddr_eq_some_iff (hb : b ∉ cs.map Prod.fst) :
    lastAddr (some b) cs = some b ↔ cs = [] := by
  rw [← firstAddr_reverse, firstAddr_eq_some_iff, List.reverse_eq_nil_iff]
  rwa [List.map_reverse, List.mem_reverse]

theorem firstAddr_replaced (hp : p ∉ cs.map Prod.fst) (q : Option Addr) :
    (if firstAddr cs (some p) = some p then q else firstAddr cs (some p)) = firstAddr cs q := by
  by_cases hcs : cs = []
  · subst hcs
    exact if_pos rfl
  · rw [if_neg (mt (firstAddr_eq_some_iff hp).mp hcs)]
    obtain ⟨c, ds, rfl⟩ := List.exists_cons_of_ne_nil hcs
    rfl

theorem lastAddr_replaced (hb : b ∉ cs.map Prod.fst) (q : Option Addr) :
    (if lastAddr (some b) cs = some b then q else lastAddr (some b) cs) = lastAddr q cs := by
  by_cases hcs : cs = []
  · subst hcs
    exact if_pos rfl
  · rw [if_neg (mt (lastAddr_eq_some_iff hb).mp hcs)]
    obtain ⟨c, ds, rfl⟩ := List.exists_cons_of_ne_nil hcs
    rfl

theorem lastAddr_eq_none_iff : lastAddr none cs = none ↔ cs = [] := by
  constructor
  · intro hnone
    by_contra hne
    obtain ⟨ds, c, rfl⟩ := (List.eq_nil_or_concat' cs).resolve_left hne
    rw [lastAddr_append] at hnone
    cases hnone
  · rintro rfl
    rfl

/-! ## Rearrangements -/

variable {s : Partition V}

theorem notMem_of_nodup (h : ((ys ++ (a, v) :: zs).map Prod.fst).Nodup) :
    a ∉ ys.map Prod.fst ∧ a ∉ zs.map Prod.fst := by
  rw [List.map_append, List.map_cons, List.nodup_middle, List.nodup_cons, List.mem_append] at h
  exact not_or.mp h.1

theorem moveBeforePivot_spec
    (h : Arranged s.list (ws ++ (p, u) :: ys ++ (b, v) :: zs) rest) :
    ∃ l', moveBeforePivot s p b = some
        { list := l'
          head := if s.head = some p then some b else s.head
          tail := if s.tail = some b then lastAddr (some p) ys else s.tail
          p1 := s.p1
          p2 := lastAddr (some p) ys } ∧
      Arranged l' (ws ++ (b, v) :: (p, u) :: (ys ++ zs)) rest := by
  have hb := (notMem_of_nodup h.nodup).2
  obtain ⟨es₁, es₂, hrun₁, hrun₂, hs₂⟩ := unlink_spec h.cells
  rw [List.append_assoc, List.cons_append] at hs₂
  obtain ⟨es₃, es₄, es₅, es₆, es₇, hread, hrun₃, hrun₄, hrun₅, hrun₆, hrun₇, hs₇⟩ :=
    linkBefore_spec rfl rfl hs₂
  have hprev : lastAddr none (ws ++ (p, u) :: ys) = lastAddr (some p) ys := by
    rw [lastAddr_append, lastAddr_cons]
  rw [hprev] at hrun₁ hrun₂
  have hhead : (if lastAddr none ws = none ∧ s.list.head = some p then some b
      else s.list.head) = firstAddr (ws ++ (b, v) :: (p, u) :: (ys ++ zs)) none := by
    rw [h.head]
    cases ws with
    | nil => exact if_pos ⟨rfl, rfl⟩
    | cons c ws => exact if_neg fun hand => List.cons_ne_nil c ws (lastAddr_eq_none_iff.mp hand.1)
  have htail : (if s.list.tail = some b then lastAddr (some p) ys else s.list.tail) =
      lastAddr none (ws ++ (b, v) :: (p, u) :: (ys ++ zs)) := by
    rw [h.tail, lastAddr_append, lastAddr_cons, lastAddr_replaced hb]
    simp
  refine ⟨{ s.list with
    entries := es₇
    head := _
    tail := _ }, ?_, hs₇, hhead, htail, ?_⟩
  · simp only [moveBeforePivot, h.entry, hprev, ownedCell, hrun₁, hrun₂, hread, hrun₃, hrun₄,
      hrun₅, hrun₆, hrun₇, guard, Option.bind_eq_bind, Option.bind_some, if_true]
    rfl
  · rw [h.length]
    simp only [List.length_append, List.length_cons]
    omega

theorem moveBehindPivot_spec
    (h : Arranged s.list (ws ++ (a, v) :: (ys ++ (p, u) :: zs)) rest) :
    ∃ l', moveBehindPivot s p a = some
        { list := l'
          head := if s.head = some a then firstAddr ys (some p) else s.head
          tail := if s.tail = some p then some a else s.tail
          p1 := firstAddr ys (some p)
          p2 := s.p2 } ∧
      Arranged l' (ws ++ ys ++ (p, u) :: (a, v) :: zs) rest := by
  have ha := (notMem_of_nodup h.nodup).1
  obtain ⟨es₁, es₂, hrun₁, hrun₂, hs₂⟩ := unlink_spec h.cells
  rw [← List.append_assoc] at hs₂
  obtain ⟨es₃, es₄, es₅, es₆, es₇, hread, hrun₃, hrun₄, hrun₅, hrun₆, hrun₇, hs₇⟩ :=
    linkBehind_spec rfl rfl hs₂
  have hnext : firstAddr (ys ++ (p, u) :: zs) none = firstAddr ys (some p) := by
    rw [firstAddr_append, firstAddr_cons]
  rw [hnext] at hrun₁ hrun₂
  have htail : (if firstAddr zs none = none ∧ s.list.tail = some p then some a
      else s.list.tail) = lastAddr none (ws ++ ys ++ (p, u) :: (a, v) :: zs) := by
    rw [h.tail, lastAddr_append, lastAddr_append, lastAddr_cons, lastAddr_append,
      lastAddr_cons, lastAddr_cons, lastAddr_cons]
    cases zs with
    | nil => exact if_pos ⟨rfl, rfl⟩
    | cons c zs => exact if_neg fun hand => Option.some_ne_none _ hand.1
  have hhead : (if s.list.head = some a then firstAddr ys (some p) else s.list.head) =
      firstAddr (ws ++ ys ++ (p, u) :: (a, v) :: zs) none := by
    rw [h.head, firstAddr_append, firstAddr_cons, firstAddr_replaced ha]
    simp
  refine ⟨{ s.list with
    entries := es₇
    head := _
    tail := _ }, ?_, hs₇, hhead, htail, ?_⟩
  · simp only [moveBehindPivot, h.entry, hnext, ownedCell, hrun₁, hrun₂, hread, hrun₃, hrun₄,
      hrun₅, hrun₆, hrun₇, guard, Option.bind_eq_bind, Option.bind_some, if_true]
    rfl
  · rw [h.length]
    simp only [List.length_append, List.length_cons]
    omega

/-- Two entries exchange their values. -/
theorem swapEntryNodeVal_spec
    (hs : es.cells = chainCells ownedCell none (ws ++ (a, u) :: (ys ++ (b, v) :: zs)) none + rest) :
    ∃ es', swapEntryNodeVal es a b = some es' ∧
      es'.cells = chainCells ownedCell none (ws ++ (a, v) :: (ys ++ (b, u) :: zs)) none + rest := by
  have hread := read_of_chainCells hs
  have hassoc : ∀ x y, ws ++ (a, x) :: (ys ++ (b, y) :: zs) =
      ws ++ (a, x) :: ys ++ (b, y) :: zs := by
    intro x y
    rw [List.append_assoc, List.cons_append]
  have hread' : es b = some (ownedCell (lastAddr none (ws ++ (a, u) :: ys))
      (firstAddr zs none) v) := by
    rw [hassoc] at hs
    exact read_of_chainCells hs
  obtain ⟨es₁, hrun₁, hs₁⟩ :=
    write_content (f := fun e => { e with value := v }) (fun _ _ => rfl) hs
  rw [hassoc] at hs₁
  obtain ⟨es₂, hrun₂, hs₂⟩ :=
    write_content (f := fun e => { e with value := u }) (fun _ _ => rfl) hs₁
  refine ⟨es₂, ?_, hassoc v u ▸ hs₂⟩
  simp only [swapEntryNodeVal, hread, hread', ownedCell, hrun₁, hrun₂, Option.bind_eq_bind,
    Option.bind_some]

/-- Two entries on different sides of the pivot exchange their values. -/
theorem swapAcrossPivot_spec
    (h : Arranged s.list (ws ++ (a, u) :: (ys ++ (b, v) :: zs)) rest) :
    ∃ l', swapAcrossPivot s a b = some { s with
        list := l'
        p1 := firstAddr ys (some b)
        p2 := lastAddr (some a) ys } ∧
      Arranged l' (ws ++ (a, v) :: (ys ++ (b, u) :: zs)) rest := by
  obtain ⟨es, hrun, hs⟩ := swapEntryNodeVal_spec h.cells
  have hnew : Arranged { s.list with entries := es } (ws ++ (a, v) :: (ys ++ (b, u) :: zs))
      rest := by
    refine ⟨hs, ?_, ?_, ?_⟩
    · rw [h.head, firstAddr_append, firstAddr_append]
      rfl
    · rw [h.tail]
      simp
    · rw [h.length]
      simp
  refine ⟨_, ?_, hnew⟩
  have hassoc : ws ++ (a, v) :: (ys ++ (b, u) :: zs) = ws ++ (a, v) :: ys ++ (b, u) :: zs := by
    rw [List.append_assoc, List.cons_append]
  have hread : es a = some (ownedCell (lastAddr none ws) (firstAddr ys (some b)) v) := by
    rw [read_of_chainCells hs, firstAddr_append, firstAddr_cons]
  have hread' : es b = some (ownedCell (lastAddr (some a) ys) (firstAddr zs none) u) := by
    rw [hassoc] at hs
    rw [read_of_chainCells hs, lastAddr_append, lastAddr_cons]
  simp only [swapAcrossPivot, hrun, hread, hread', ownedCell, Option.bind_eq_bind,
    Option.bind_some]

end LinkedList
end LibHL
