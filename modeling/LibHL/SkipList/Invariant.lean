import LibHL.SkipList.Model
import LibHL.Support.Comparator
import LibHL.Support.LiveCells

/-!
# What a well-formed skip list is

Every layer is a tail queue of wrappers of its own, an item on one layer is on
all layers below, and the lowest layer holds all items in ascending order.  The
order of the upper layers plays no role: wherever the search leaves them, it is
at an item that is not greater than the key, and the lowest layer does the rest.
-/

namespace LibHL
namespace SkipList

variable {K V : Type} {c : OrderComparator K} {skl : SkipList K V}
  {items : Heap (SklItem K V)} {layers layers' : Tailqs ℕ SklItemWrapper}
  {L : ℕ → List Addr} {a b : Addr} {i j N : ℕ} {key : K}

/-- The wrappers of items for a layer. -/
def wrappersOf (i : ℕ) (l : List Addr) : List SklItemWrapper := l.map fun a => (a, i)

/-- The layers below `N` hold the items given by `L`, each through its own
wrappers. -/
def Queues (layers : Tailqs ℕ SklItemWrapper) (N : ℕ) (L : ℕ → List Addr) : Prop :=
  ∀ i, i < N → layers.Holds i (wrappersOf i (L i))

/-- The key of an item is smaller than that of another one. -/
def KeyLt (cmp : K → K → ℤ) (items : Heap (SklItem K V)) (a b : Addr) : Prop :=
  ∀ x y, items a = some x → items b = some y → cmp x.key y.key < 0

/-- What links and flags say of the layers; `L` lists the items of each one. -/
structure Layered (skl : SkipList K V) (L : ℕ → List Addr) : Prop where
  positive : ∀ a item, skl.items a = some item → 0 < skl.numLayers
  queues : Queues skl.layers skl.numLayers L
  member : ∀ i, i < skl.numLayers → ∀ a, a ∈ L i ↔
    ∃ item, skl.items a = some item ∧ item.layerCheck i = true
  lowest : ∀ a item, skl.items a = some item → item.layerCheck 0 = true
  nested : ∀ a item i, skl.items a = some item → i + 1 < skl.numLayers →
    item.layerCheck (i + 1) = true → item.layerCheck i = true

/-- The invariant of the skip list; `L` lists the items of each layer. -/
structure Wf (c : OrderComparator K) (skl : SkipList K V) (L : ℕ → List Addr) : Prop where
  positive : 0 < skl.numLayers
  queues : Queues skl.layers skl.numLayers L
  member : ∀ i, i < skl.numLayers → ∀ a, a ∈ L i ↔
    ∃ item, skl.items a = some item ∧ item.layerCheck i = true
  lowest : ∀ a item, skl.items a = some item → item.layerCheck 0 = true
  nested : ∀ a item i, skl.items a = some item → i + 1 < skl.numLayers →
    item.layerCheck (i + 1) = true → item.layerCheck i = true
  sorted : (L 0).Pairwise (KeyLt c.cmp skl.items)
  count : skl.count = skl.items.live.card

theorem Wf.layered (h : Wf c skl L) : Layered skl L where
  positive := fun _ _ _ => h.positive
  queues := h.queues
  member := h.member
  lowest := h.lowest
  nested := h.nested

/-! ## Layers -/

theorem mem_wrappersOf {w : SklItemWrapper} {l : List Addr} :
    w ∈ wrappersOf i l ↔ w.1 ∈ l ∧ w.2 = i := by
  rw [wrappersOf, List.mem_map]
  constructor
  · rintro ⟨a, ha, rfl⟩
    exact ⟨ha, rfl⟩
  · rintro ⟨hmem, rfl⟩
    exact ⟨w.1, hmem, rfl⟩

theorem wrappersOf_split (i : ℕ) (p : List Addr) (a : Addr) (q : List Addr) :
    wrappersOf i (p ++ a :: q) = wrappersOf i p ++ (a, i) :: wrappersOf i q := by
  simp [wrappersOf]

theorem head?_wrappersOf (i : ℕ) (l : List Addr) :
    (wrappersOf i l).head? = l.head?.map fun a => (a, i) := by
  cases l with
  | nil => rfl
  | cons a l => rfl

theorem entry_next {p q : List Addr} (h : layers.Holds i (wrappersOf i (p ++ a :: q))) :
    ∃ prev, layers.entry (a, i) = some ⟨q.head?.map fun b => (b, i), prev⟩ := by
  rw [wrappersOf_split] at h
  have hentry := h.entry_eq
  rw [head?_wrappersOf] at hentry
  exact ⟨_, hentry⟩

/-- Changes within one layer leave the others alone. -/
theorem Queues.update {changed : SklItemWrapper → Prop} {l : List Addr}
    (h : Queues layers N L) (hl : layers'.Holds i (wrappersOf i l))
    (hframe : Tailqs.Frame i changed layers layers') (hch : ∀ w, changed w → w.2 = i) :
    Queues layers' N (Function.update L i l) := by
  intro j hj
  by_cases hji : j = i
  · subst hji
    rw [Function.update_self]
    exact hl
  · rw [Function.update_of_ne hji]
    refine (h j hj).frame hji hframe ?_
    intro w hw hwc
    have hlayer := (mem_wrappersOf.mp hw).2
    exact hji (hlayer.symm.trans (hch w hwc))

namespace Layered

theorem live_of_mem (h : Layered skl L) (hi : i < skl.numLayers) (ha : a ∈ L i) :
    ∃ item, skl.items a = some item := by
  obtain ⟨item, hitem, -⟩ := (h.member i hi a).mp ha
  exact ⟨item, hitem⟩

theorem mem_below (h : Layered skl L) (hj : j < skl.numLayers) (ha : a ∈ L j) :
    ∀ i, i ≤ j → a ∈ L i := by
  obtain ⟨item, hitem, hcheck⟩ := (h.member j hj a).mp ha
  have hdown : ∀ d, d ≤ j → item.layerCheck (j - d) = true := by
    intro d
    induction d with
    | zero => exact fun _ => hcheck
    | succ d ih =>
        intro hd
        refine h.nested a item (j - (d + 1)) hitem (by omega) ?_
        rw [show j - (d + 1) + 1 = j - d by omega]
        exact ih (by omega)
  intro i hij
  have := hdown (j - i) (by omega)
  rw [show j - (j - i) = i by omega] at this
  exact (h.member i (by omega) a).mpr ⟨item, hitem, this⟩

theorem nodup_layer (h : Layered skl L) (hi : i < skl.numLayers) : (L i).Nodup :=
  List.Nodup.of_map _ (h.queues i hi).nodup

theorem length_layer_le (h : Layered skl L) (hi : i < skl.numLayers) :
    (L i).length ≤ skl.items.brk := by
  have hsub : (L i).toFinset ⊆ skl.items.live := by
    intro a ha
    obtain ⟨item, hitem⟩ := h.live_of_mem hi (List.mem_toFinset.mp ha)
    exact Heap.mem_live_of_eq_some hitem
  calc (L i).length = (L i).toFinset.card :=
        (List.toFinset_card_of_nodup (h.nodup_layer hi)).symm
    _ ≤ skl.items.live.card := Finset.card_le_card hsub
    _ ≤ skl.items.brk := skl.items.card_live_le_brk

theorem mem_lowest (h : Layered skl L) (hpos : 0 < skl.numLayers) :
    a ∈ L 0 ↔ ∃ item, skl.items a = some item := by
  rw [h.member 0 hpos]
  constructor
  · rintro ⟨item, hitem, -⟩
    exact ⟨item, hitem⟩
  · rintro ⟨item, hitem⟩
    exact ⟨item, hitem, h.lowest a item hitem⟩

end Layered

theorem Wf.mem_lowest (h : Wf c skl L) : a ∈ L 0 ↔ ∃ item, skl.items a = some item :=
  h.layered.mem_lowest h.positive

/-! ## Searching -/

/-- The item has a key that is not greater than the given one. -/
def NotAbove (cmp : K → K → ℤ) (items : Heap (SklItem K V)) (key : K) (a : Addr) : Prop :=
  ∃ item, items a = some item ∧ cmp item.key key ≤ 0

/-- The item has a greater key. -/
def IsAbove (cmp : K → K → ℤ) (items : Heap (SklItem K V)) (key : K) (a : Addr) : Prop :=
  ∃ item, items a = some item ∧ 0 < cmp item.key key

/-- The inner loop stops before the first item of the layer with a greater key. -/
theorem advance_spec (cmp : K → K → ℤ) :
    ∀ (q p : List Addr) (prevItem : Option SklItemWrapper) (fuel : ℕ),
      layers.Holds i (wrappersOf i (p ++ q)) →
      (∀ a ∈ q, ∃ item, items a = some item) → q.length < fuel →
      ∃ q₁ q₂, q = q₁ ++ q₂ ∧ (∀ a ∈ q₁, NotAbove cmp items key a) ∧
        (∀ b, q₂.head? = some b → IsAbove cmp items key b) ∧
        advance cmp items layers key fuel prevItem (q.head?.map fun a => (a, i)) =
          some ((q₁.getLast?.map fun a => (a, i)).or prevItem) := by
  intro q
  induction q with
  | nil =>
      intro p prevItem fuel _ _ hfuel
      obtain ⟨f, rfl⟩ : ∃ f, fuel = f + 1 := ⟨fuel - 1, by omega⟩
      exact ⟨[], [], rfl, by simp, by simp, rfl⟩
  | cons a q ih =>
      intro p prevItem fuel hholds hlive hfuel
      obtain ⟨f, rfl⟩ : ∃ f, fuel = f + 1 := ⟨fuel - 1, by omega⟩
      obtain ⟨item, hitem⟩ := hlive a List.mem_cons_self
      obtain ⟨prev, hentry⟩ := entry_next hholds
      by_cases hcmp : 0 < cmp item.key key
      · refine ⟨[], a :: q, rfl, by simp, ?_, ?_⟩
        · rintro b ⟨⟩
          exact ⟨item, hitem, hcmp⟩
        · simp [advance, hentry, hitem, hcmp]
      · have hholds' : layers.Holds i (wrappersOf i ((p ++ [a]) ++ q)) := by
          rw [List.append_assoc]
          exact hholds
        have hlen : q.length < f := by
          rw [List.length_cons] at hfuel
          omega
        obtain ⟨q₁, q₂, hq, hle, hgt, hrun⟩ := ih (p ++ [a]) (some (a, i)) f hholds'
          (fun b hb => hlive b (List.mem_cons_of_mem a hb)) hlen
        refine ⟨a :: q₁, q₂, by rw [hq]; rfl, ?_, hgt, ?_⟩
        · intro b hb
          rcases List.mem_cons.mp hb with rfl | hb
          · exact ⟨item, hitem, Int.not_lt.mp hcmp⟩
          · exact hle b hb
        · have hstep : advance cmp items layers key (f + 1) prevItem (some (a, i)) =
              advance cmp items layers key f (some (a, i))
                (q.head?.map fun b => (b, i)) := by
            simp [advance, hentry, hitem, hcmp]
          rw [List.head?_cons, Option.map_some, hstep, hrun, List.getLast?_cons]
          cases hlast : q₁.getLast? with
          | none => rfl
          | some b => rfl

/-- A wrapper the search has passed, seen from layer `i`. -/
def Passed (cmp : K → K → ℤ) (skl : SkipList K V) (L : ℕ → List Addr) (key : K) (i : ℕ)
    (prevItem : Option SklItemWrapper) : Prop :=
  ∀ w, prevItem = some w → i ≤ w.2 ∧ w.2 < skl.numLayers ∧ w.1 ∈ L w.2 ∧
    NotAbove cmp skl.items key w.1

/-- The search has passed exactly the items of the lowest layer whose key is not
greater. -/
def Reached (cmp : K → K → ℤ) (skl : SkipList K V) (L : ℕ → List Addr) (key : K)
    (prevItem : Option SklItemWrapper) : Prop :=
  (prevItem = none ∧ ∀ a ∈ L 0, IsAbove cmp skl.items key a) ∨
    ∃ w p q, prevItem = some w ∧ L 0 = p ++ w.1 :: q ∧ NotAbove cmp skl.items key w.1 ∧
      ∀ a ∈ q, IsAbove cmp skl.items key a

/-- In ascending order, all items after one with a greater key have greater keys. -/
theorem isAbove_of_head {c : Comparator K} {q : List Addr}
    (hsorted : q.Pairwise (KeyLt c.cmp skl.items))
    (hlive : ∀ a ∈ q, ∃ item, skl.items a = some item)
    (hhead : ∀ b, q.head? = some b → IsAbove c.cmp skl.items key b) :
    ∀ a ∈ q, IsAbove c.cmp skl.items key a := by
  cases q with
  | nil => simp
  | cons b q =>
      obtain ⟨x, hx, hxk⟩ := hhead b rfl
      intro a ha
      rcases List.mem_cons.mp ha with rfl | haq
      · exact ⟨x, hx, hxk⟩
      · obtain ⟨y, hy⟩ := hlive a ha
        have hxy := (List.pairwise_cons.mp hsorted).1 a haq x y hx hy
        refine ⟨y, hy, ?_⟩
        by_contra hle
        have hxk' := c.trans x.key y.key key (Int.le_of_lt hxy) (Int.not_lt.mp hle)
        omega

/-- One layer of the search: it starts after the items passed so far, and passes
the items up to the first one with a greater key. -/
theorem Layered.searchLayer (h : Layered skl L) {cmp : K → K → ℤ} (hi : i < skl.numLayers)
    {prevItem : Option SklItemWrapper} (hprev : Passed cmp skl L key (i + 1) prevItem)
    {fuel : ℕ} (hfuel : skl.items.brk < fuel) :
    ∃ start p q₁ q₂, startOf skl.layers prevItem i = some start ∧ L i = p ++ (q₁ ++ q₂) ∧
      (prevItem = none → p = []) ∧ (∀ w, prevItem = some w → ∃ p', p = p' ++ [w.1]) ∧
      (∀ a ∈ q₁, NotAbove cmp skl.items key a) ∧
      (∀ b, q₂.head? = some b → IsAbove cmp skl.items key b) ∧
      advance cmp skl.items skl.layers key fuel prevItem start =
        some ((q₁.getLast?.map fun a => (a, i)).or prevItem) := by
  obtain ⟨p, q, hL, hstart⟩ : ∃ p q, L i = p ++ q ∧
      startOf skl.layers prevItem i = some (q.head?.map fun a => (a, i)) ∧
      (prevItem = none → p = []) ∧
      ∀ w, prevItem = some w → ∃ p', p = p' ++ [w.1] := by
    cases prevItem with
    | none =>
        refine ⟨[], L i, rfl, ?_, fun _ => rfl, ?_⟩
        · rw [startOf, (h.queues i hi).first, head?_wrappersOf]
        · intro w hw
          cases hw
    | some w =>
        obtain ⟨hwi, hwN, hmem, -⟩ := hprev w rfl
        have hmem' := h.mem_below hwN hmem i (by omega)
        obtain ⟨p, q, hsplit⟩ := List.append_of_mem hmem'
        have hholds := h.queues i hi
        rw [hsplit] at hholds
        obtain ⟨prev, hentry⟩ := entry_next hholds
        refine ⟨p ++ [w.1], q, ?_, ?_, ?_, ?_⟩
        · rw [hsplit, List.append_assoc]
          rfl
        · rw [startOf, hentry, Option.map_some]
        · intro hnone
          cases hnone
        · rintro w' ⟨⟩
          exact ⟨p, rfl⟩
  obtain ⟨hstart, hpnil, hpend⟩ := hstart
  have hholds := h.queues i hi
  rw [hL] at hholds
  have hmemq : ∀ a ∈ q, a ∈ L i := by
    intro a ha
    rw [hL]
    exact List.mem_append_right p ha
  have hlen : q.length < fuel := by
    have hle := h.length_layer_le hi
    rw [hL, List.length_append] at hle
    omega
  obtain ⟨q₁, q₂, hq, hle, hgt, hrun⟩ := advance_spec cmp q p prevItem fuel hholds
    (fun a ha => h.live_of_mem hi (hmemq a ha)) hlen
  exact ⟨_, p, q₁, q₂, hstart, by rw [hL, hq], hpnil, hpend, hle, hgt, hrun⟩

theorem passed_of_searchLayer {cmp : K → K → ℤ} (hi : i < skl.numLayers)
    {prevItem : Option SklItemWrapper} (hprev : Passed cmp skl L key (i + 1) prevItem)
    {p q₁ q₂ : List Addr} (hL : L i = p ++ (q₁ ++ q₂))
    (hle : ∀ a ∈ q₁, NotAbove cmp skl.items key a) :
    Passed cmp skl L key i ((q₁.getLast?.map fun a => (a, i)).or prevItem) := by
  intro w hw
  cases hlast : q₁.getLast? with
  | none =>
      rw [hlast] at hw
      obtain ⟨hwi, hrest⟩ := hprev w hw
      exact ⟨by omega, hrest⟩
  | some a =>
      rw [hlast] at hw
      cases hw
      have ha : a ∈ q₁ := List.mem_of_getLast? hlast
      refine ⟨Nat.le_refl i, hi, ?_, hle a ha⟩
      rw [hL]
      exact List.mem_append_right p (List.mem_append_left q₂ ha)

/-- What the search leaves of the lowest layer. -/
theorem Layered.reached_of_searchLayer (h : Layered skl L) (hpos : 0 < skl.numLayers)
    {c : Comparator K} (hsorted : (L 0).Pairwise (KeyLt c.cmp skl.items))
    {prevItem : Option SklItemWrapper} (hprev : Passed c.cmp skl L key 1 prevItem)
    {p q₁ q₂ : List Addr}
    (hL : L 0 = p ++ (q₁ ++ q₂)) (hpnil : prevItem = none → p = [])
    (hpend : ∀ w, prevItem = some w → ∃ p', p = p' ++ [w.1])
    (hle : ∀ a ∈ q₁, NotAbove c.cmp skl.items key a)
    (hgt : ∀ b, q₂.head? = some b → IsAbove c.cmp skl.items key b) :
    Reached c.cmp skl L key ((q₁.getLast?.map fun a => (a, 0)).or prevItem) := by
  rw [hL] at hsorted
  have hq₂ : ∀ a ∈ q₂, IsAbove c.cmp skl.items key a := by
    refine isAbove_of_head ?_ ?_ hgt
    · exact (List.pairwise_append.mp (List.pairwise_append.mp hsorted).2.1).2.1
    · intro a ha
      refine h.live_of_mem hpos ?_
      rw [hL]
      exact List.mem_append_right p (List.mem_append_right q₁ ha)
  rcases List.eq_nil_or_concat q₁ with rfl | ⟨q₁, a, rfl⟩
  · cases prevItem with
    | none =>
        refine Or.inl ⟨rfl, ?_⟩
        rw [hL, hpnil rfl]
        exact hq₂
    | some w =>
        obtain ⟨p', rfl⟩ := hpend w rfl
        refine Or.inr ⟨w, p', q₂, rfl, ?_, (hprev w rfl).2.2.2, hq₂⟩
        rw [hL, List.append_assoc]
        rfl
  · rw [List.concat_eq_append] at *
    refine Or.inr ⟨(a, 0), p ++ q₁, q₂, ?_, ?_, hle a (by simp), hq₂⟩
    · rw [List.getLast?_concat]
      rfl
    · rw [hL]
      simp

/-- The search over the layers below `n`; `prevItem'` comes from the lowest one. -/
theorem Layered.searchLayers_spec (h : Layered skl L) (cmp : K → K → ℤ) (key : K) {fuel : ℕ}
    (hfuel : skl.items.brk < fuel) :
    ∀ (n : ℕ) (prevItem : Option SklItemWrapper) (path : ℕ → Option SklItemWrapper),
      n ≤ skl.numLayers → Passed cmp skl L key n prevItem →
      ∃ prevItem' path', searchLayers cmp skl.items skl.layers key fuel n prevItem path =
          some (prevItem', path') ∧
        Passed cmp skl L key 0 prevItem' ∧
        (0 < n → ∃ prev₁ start, Passed cmp skl L key 1 prev₁ ∧
          startOf skl.layers prev₁ 0 = some start ∧
          advance cmp skl.items skl.layers key fuel prev₁ start = some prevItem') ∧
        (∀ i, i < n → Passed cmp skl L key i (path' i)) ∧
        ∀ i, n ≤ i → path' i = path i := by
  intro n
  induction n with
  | zero =>
      intro prevItem path _ hprev
      exact ⟨prevItem, path, rfl, hprev, by simp, by simp, fun _ _ => rfl⟩
  | succ n ih =>
      intro prevItem path hn hprev
      obtain ⟨start, p, q₁, q₂, hstart, hL, -, -, hle, -, hadv⟩ :=
        h.searchLayer (Nat.lt_of_succ_le hn) hprev hfuel
      have hpassed := passed_of_searchLayer (Nat.lt_of_succ_le hn) hprev hL hle
      obtain ⟨prev₂, path', hrun, hprev₂, hlast, hpath, hrest⟩ :=
        ih _ (Function.update path n ((q₁.getLast?.map fun a => (a, n)).or prevItem))
          (by omega) hpassed
      refine ⟨prev₂, path', ?_, hprev₂, ?_, ?_, ?_⟩
      · simp [searchLayers, hstart, hadv, hrun]
      · intro _
        cases n with
        | zero =>
            cases hrun
            exact ⟨prevItem, start, hprev, hstart, hadv⟩
        | succ n => exact hlast (Nat.succ_pos n)
      · intro i hi
        by_cases hin : i < n
        · exact hpath i hin
        · have heq : i = n := by omega
          subst heq
          rw [hrest i (Nat.le_refl i), Function.update_self]
          exact hpassed
      · intro i hi
        rw [hrest i (by omega), Function.update_of_ne (by omega)]

theorem Layered.skiplistSearchInternal_spec (h : Layered skl L) (cmp : K → K → ℤ) (key : K) :
    ∃ prevItem path, skiplistSearchInternal cmp skl key = some (prevItem, path) ∧
      Passed cmp skl L key 0 prevItem ∧
      ∀ i, i < skl.numLayers → Passed cmp skl L key i (path i) := by
  by_cases hN : skl.numLayers = 0
  · refine ⟨none, fun _ => none, ?_, nofun, by simp [hN]⟩
    rw [skiplistSearchInternal, hN]
    rfl
  · have hfuel : skl.items.brk < skl.items.brk * skl.numLayers + 1 :=
      Nat.lt_succ_of_le (Nat.le_mul_of_pos_right _ (Nat.pos_of_ne_zero hN))
    obtain ⟨prevItem, path, hrun, hprev, -, hpath, -⟩ :=
      h.searchLayers_spec cmp key hfuel skl.numLayers none (fun _ => none)
        (Nat.le_refl _) (by simp [Passed])
    exact ⟨prevItem, path, hrun, hprev, hpath⟩

/-- `skiplist_search_internal` on a list with its layers linked and the lowest one in
ascending order. -/
theorem Layered.skiplistSearchInternal_reaches (h : Layered skl L) (hpos : 0 < skl.numLayers)
    {c : Comparator K} (hsorted : (L 0).Pairwise (KeyLt c.cmp skl.items)) (key : K) :
    ∃ prevItem path, skiplistSearchInternal c.cmp skl key = some (prevItem, path) ∧
      Reached c.cmp skl L key prevItem ∧
      ∀ i, i < skl.numLayers → Passed c.cmp skl L key i (path i) := by
  have hfuel : skl.items.brk < skl.items.brk * skl.numLayers + 1 :=
    Nat.lt_succ_of_le (Nat.le_mul_of_pos_right _ hpos)
  obtain ⟨prevItem, path, hrun, -, hlast, hpath, -⟩ :=
    h.searchLayers_spec c.cmp key hfuel skl.numLayers none (fun _ => none)
      (Nat.le_refl _) (by simp [Passed])
  obtain ⟨prev₁, start, hprev₁, hstart, hadv⟩ := hlast hpos
  obtain ⟨start', p, q₁, q₂, hstart', hL, hpnil, hpend, hle, hgt, hadv'⟩ :=
    h.searchLayer hpos hprev₁ hfuel
  rw [hstart] at hstart'
  cases hstart'
  rw [hadv] at hadv'
  cases hadv'
  exact ⟨_, path, hrun,
    h.reached_of_searchLayer hpos hsorted hprev₁ hL hpnil hpend hle hgt, hpath⟩

theorem skiplistSearchInternal_spec (h : Wf c skl L) (key : K) :
    ∃ prevItem path, skiplistSearchInternal c.cmp skl key = some (prevItem, path) ∧
      Reached c.cmp skl L key prevItem ∧
      ∀ i, i < skl.numLayers → Passed c.cmp skl L key i (path i) :=
  h.layered.skiplistSearchInternal_reaches h.positive h.sorted key

end SkipList
end LibHL
