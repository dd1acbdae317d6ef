import LibHL.SkipList.Invariant

/-!
# The operations of the skip list keep it well formed

An insertion goes right if every link it makes lands on the layer it is meant
for, and if the lowest layer stays in ascending order.  A removal always does.
-/

namespace LibHL
namespace SkipList

variable {K V : Type} {c : OrderComparator K} {skl : SkipList K V}
  {layers layers' : Tailqs ℕ SklItemWrapper} {L : ℕ → List Addr} {a b : Addr}
  {i j N : ℕ} {key : K}

/-! ## Linking -/

theorem notMem_wrappersOf {l : List Addr} (ha : a ∉ l) : (a, i) ∉ wrappersOf i l := by
  intro hmem
  exact ha (mem_wrappersOf.mp hmem).1

/-- A wrapper without a predecessor goes to the tail of its layer. -/
theorem linkWrapper_tail (h : Queues layers N L) (hi : i < N) (ha : a ∉ L i)
    (hlive : (layers.entry (a, i)).isSome) :
    ∃ layers', linkWrapper layers i none (a, i) = some layers' ∧
      Queues layers' N (Function.update L i (L i ++ [a])) ∧
      ∀ w, (layers'.entry w).isSome ↔ (layers.entry w).isSome := by
  obtain ⟨e, he⟩ := Option.isSome_iff_exists.mp hlive
  obtain ⟨layers', hrun, hholds, hframe⟩ := (h i hi).insertTail (notMem_wrappersOf ha) he
  have hl : wrappersOf i (L i) ++ [(a, i)] = wrappersOf i (L i ++ [a]) := by
    simp [wrappersOf]
  rw [hl] at hholds
  refine ⟨layers', hrun, h.update hholds hframe ?_, hframe.live⟩
  rintro w (rfl | hw)
  · rfl
  · exact (mem_wrappersOf.mp hw).2

theorem linkWrapper_after (h : Queues layers N L) (hi : i < N) (ha : a ∉ L i)
    (hlive : (layers.entry (a, i)).isSome) {p q : List Addr} (hsplit : L i = p ++ b :: q) :
    ∃ layers', linkWrapper layers i (some (b, i)) (a, i) = some layers' ∧
      Queues layers' N (Function.update L i (p ++ b :: a :: q)) ∧
      ∀ w, (layers'.entry w).isSome ↔ (layers.entry w).isSome := by
  obtain ⟨e, he⟩ := Option.isSome_iff_exists.mp hlive
  have hholds := h i hi
  have hnot : (a, i) ∉ wrappersOf i (L i) := notMem_wrappersOf ha
  rw [hsplit, wrappersOf_split] at hholds hnot
  obtain ⟨layers', hrun, hholds', hframe⟩ := hholds.insertAfter hnot he
  have hl : wrappersOf i p ++ (b, i) :: (a, i) :: wrappersOf i q =
      wrappersOf i (p ++ b :: a :: q) := by
    simp [wrappersOf]
  rw [hl] at hholds'
  refine ⟨layers', hrun, h.update hholds' hframe ?_, hframe.live⟩
  rintro w (rfl | hw)
  · rfl
  · rw [← wrappersOf_split] at hw
    exact (mem_wrappersOf.mp hw).2

/-- The coin flips promote the new item to layer `i`. -/
def promoted (probability : ℤ) (random : ℕ → ℕ) : ℕ → Bool
  | 0 => true
  | i + 1 => promoted probability random i &&
      decide (probability < ((random (i + 1) % 100 : ℕ) : ℤ))

/-- Where the wrapper for layer `i` is linked is on layer `i`. -/
def OnLayer (L : ℕ → List Addr) (i : ℕ) (after : Option SklItemWrapper) : Prop :=
  ∀ w, after = some w → w.2 = i ∧ w.1 ∈ L i

/-- Linking a wrapper where it belongs, on whatever position. -/
theorem linkWrapper_spec (h : Queues layers N L) (hi : i < N) (ha : a ∉ L i)
    (hlive : (layers.entry (a, i)).isSome) {after : Option SklItemWrapper}
    (hon : OnLayer L i after) :
    ∃ layers' l, linkWrapper layers i after (a, i) = some layers' ∧
      Queues layers' N (Function.update L i l) ∧ (∀ b, b ∈ l ↔ b ∈ L i ∨ b = a) ∧
      ∀ w, (layers'.entry w).isSome ↔ (layers.entry w).isSome := by
  cases after with
  | none =>
      obtain ⟨layers', hrun, hq, hsome⟩ := linkWrapper_tail h hi ha hlive
      exact ⟨layers', L i ++ [a], hrun, hq, by simp, hsome⟩
  | some w =>
      obtain ⟨w₁, w₂⟩ := w
      obtain ⟨rfl, hmem⟩ := hon (w₁, w₂) rfl
      obtain ⟨p, q, hsplit⟩ := List.append_of_mem hmem
      obtain ⟨layers', hrun, hq, hsome⟩ := linkWrapper_after h hi ha hlive hsplit
      refine ⟨layers', p ++ w₁ :: a :: q, hrun, hq, ?_, hsome⟩
      intro b
      have hb : b ∈ L w₂ ↔ b ∈ p ∨ b = w₁ ∨ b ∈ q := by
        rw [hsplit, List.mem_append, List.mem_cons]
      rw [hb, List.mem_append, List.mem_cons, List.mem_cons]
      tauto

/-- The coin loop links the item on the layers it is promoted to. -/
theorem promote_spec {probability : ℤ} {random : ℕ → ℕ} {path : ℕ → Option SklItemWrapper} :
    ∀ (n k : ℕ) (layers : Tailqs ℕ SklItemWrapper) (L : ℕ → List Addr)
      (layerCheck : ℕ → Bool), k + 1 + n = N → Queues layers N L →
      (∀ j, k < j → j < N → a ∉ L j) → (∀ j, j < N → (layers.entry (a, j)).isSome) →
      (∀ j, k < j → j < N → promoted probability random j = true → OnLayer L j (path j)) →
      (∀ j, k < j → layerCheck j = false) →
      ∃ layers' L' layerCheck',
        promote probability random path a n (k + 1) (promoted probability random k) layers
          layerCheck = some (layers', layerCheck') ∧
        Queues layers' N L' ∧ (∀ j, j ≤ k → L' j = L j) ∧
        (∀ j, k < j → j < N → ∀ b, b ∈ L' j ↔
          b ∈ L j ∨ b = a ∧ promoted probability random j = true) ∧
        (∀ j, j ≤ k → layerCheck' j = layerCheck j) ∧
        ∀ j, k < j → j < N → layerCheck' j = promoted probability random j := by
  intro n
  induction n with
  | zero =>
      intro k layers L layerCheck hN hq _ _ _ _
      refine ⟨layers, L, layerCheck, rfl, hq, fun _ _ => rfl, ?_, fun _ _ => rfl, ?_⟩
      · intro j hj hjN
        omega
      · intro j hj hjN
        omega
  | succ n ih =>
      intro k layers L layerCheck hN hq hnot hlive hpath hcheck
      have hcoin : promoted probability random (k + 1) = true ↔
          promoted probability random k = true ∧
            probability < ((random (k + 1) % 100 : ℕ) : ℤ) := by
        rw [promoted, Bool.and_eq_true, decide_eq_true_iff]
      by_cases hp : promoted probability random (k + 1) = true
      · obtain ⟨layers₁, l, hlink, hq₁, hl, hsome₁⟩ :=
          linkWrapper_spec hq (i := k + 1) (by omega) (hnot (k + 1) (by omega) (by omega))
            (hlive (k + 1) (by omega)) (hpath (k + 1) (by omega) (by omega) hp)
        have hother : ∀ j, k + 1 < j → Function.update L (k + 1) l j = L j := fun j hj =>
          Function.update_of_ne (by omega) _ _
        obtain ⟨layers', L', check', hrun, hq', hlow, hmem, hclow, hcmem⟩ :=
          ih (k + 1) layers₁ (Function.update L (k + 1) l)
            (Function.update layerCheck (k + 1) true) (by omega) hq₁
            (by
              intro j hj hjN
              rw [hother j hj]
              exact hnot j (by omega) hjN)
            (fun j hj => (hsome₁ (a, j)).mpr (hlive j hj))
            (by
              intro j hj hjN hpj w hw
              rw [hother j hj]
              exact hpath j (by omega) hjN hpj w hw)
            (by
              intro j hj
              rw [Function.update_of_ne (by omega)]
              exact hcheck j (by omega))
        refine ⟨layers', L', check', ?_, hq', ?_, ?_, ?_, ?_⟩
        · rw [promote, if_pos (hcoin.mp hp), hlink]
          rw [hp] at hrun
          exact hrun
        · intro j hj
          rw [hlow j (by omega), Function.update_of_ne (by omega)]
        · intro j hj hjN b
          by_cases hjk : j = k + 1
          · subst hjk
            rw [hlow (k + 1) (Nat.le_refl _), Function.update_self, hl, hp]
            simp
          · rw [hmem j (by omega) hjN, hother j (by omega)]
        · intro j hj
          rw [hclow j (by omega), Function.update_of_ne (by omega)]
        · intro j hj hjN
          by_cases hjk : j = k + 1
          · subst hjk
            rw [hclow (k + 1) (Nat.le_refl _), Function.update_self, hp]
          · exact hcmem j (by omega) hjN
      · obtain ⟨layers', L', check', hrun, hq', hlow, hmem, hclow, hcmem⟩ :=
          ih (k + 1) layers L layerCheck (by omega) hq
            (fun j hj hjN => hnot j (by omega) hjN) hlive
            (fun j hj hjN => hpath j (by omega) hjN) (fun j hj => hcheck j (by omega))
        refine ⟨layers', L', check', ?_, hq', ?_, ?_, ?_, ?_⟩
        · rw [promote, if_neg (fun hand => hp (hcoin.mpr hand))]
          rw [Bool.not_eq_true] at hp
          rw [hp] at hrun
          exact hrun
        · intro j hj
          exact hlow j (by omega)
        · intro j hj hjN b
          by_cases hjk : j = k + 1
          · subst hjk
            rw [hlow (k + 1) (Nat.le_refl _)]
            simp [hp]
          · exact hmem j (by omega) hjN b
        · intro j hj
          exact hclow j (by omega)
        · intro j hj hjN
          by_cases hjk : j = k + 1
          · subst hjk
            rw [hclow (k + 1) (Nat.le_refl _), hcheck (k + 1) (by omega)]
            rw [Bool.not_eq_true] at hp
            exact hp.symm
          · exact hcmem j (by omega) hjN

/-! ## Insertion -/

/-- What a search key is compared with. -/
def pair (item : SklItem K V) : (_ : K) × V := ⟨item.key, item.value⟩

theorem cmp_self (c : OrderComparator K) (k : K) : c.cmp k k = 0 := by
  have hle := c.refl k
  have hge := (c.dual k k).mpr hle
  omega

/-- The items passed on the lowest layer have smaller keys than an absent key. -/
theorem lt_of_passed (h : Wf c skl L) {p q : List Addr} (hsplit : L 0 = p ++ b :: q)
    (hle : NotAbove c.cmp skl.items key b)
    (habsent : ∀ a item, skl.items a = some item → item.key ≠ key) :
    ∀ a ∈ p ++ [b], ∀ item, skl.items a = some item → c.cmp item.key key < 0 := by
  obtain ⟨y, hy, hyk⟩ := hle
  have hne : c.cmp y.key key ≠ 0 := fun heq => habsent b y hy (c.eq_of_cmp _ _ heq)
  intro a ha x hx
  rcases List.mem_append.mp ha with ha | ha
  · have hsorted := h.sorted
    rw [hsplit, List.pairwise_append] at hsorted
    have hxy := hsorted.2.2 a ha b List.mem_cons_self x y hx hy
    by_contra hge
    have hxk := (c.dual x.key key).mp (Int.not_lt.mp hge)
    have hky := c.trans y.key key x.key hyk hxk
    have := (c.dual x.key y.key).mpr hky
    omega
  · rw [List.mem_singleton] at ha
    subst ha
    rw [hx] at hy
    cases hy
    omega

/-- The list that the lowest layer becomes when a new item is linked. -/
theorem sorted_insert (h : Wf c skl L) {prevItem : Option SklItemWrapper}
    (hreached : Reached c.cmp skl L key prevItem)
    (hlow : prevItem = none → L 0 = [])
    (habsent : ∀ a item, skl.items a = some item → item.key ≠ key)
    (hlive : ∀ i, i < skl.numLayers → (layers.entry (a, i)).isSome)
    (hq : Queues layers skl.numLayers L) (hnot : a ∉ L 0)
    (items' : Heap (SklItem K V)) (hold : ∀ b, b ≠ a → items' b = skl.items b)
    (hnew : ∀ item, items' a = some item → item.key = key) :
    ∃ layers' l, linkWrapper layers 0 (prevItem.map fun w => (w.1, 0)) (a, 0) = some layers' ∧
      Queues layers' skl.numLayers (Function.update L 0 l) ∧ (∀ b, b ∈ l ↔ b ∈ L 0 ∨ b = a) ∧
      l.Pairwise (KeyLt c.cmp items') ∧
      ∀ w, (layers'.entry w).isSome ↔ (layers.entry w).isSome := by
  have hlt : ∀ {x y : Addr}, x ∈ L 0 → y ∈ L 0 → KeyLt c.cmp skl.items x y →
      KeyLt c.cmp items' x y := by
    intro x y hx hy hxy u v hu hv
    rw [hold x (ne_of_mem_of_not_mem hx hnot)] at hu
    rw [hold y (ne_of_mem_of_not_mem hy hnot)] at hv
    exact hxy u v hu hv
  rcases hreached with ⟨rfl, -⟩ | ⟨w, p, q, rfl, hsplit, hle, hgt⟩
  · obtain ⟨layers', hrun, hq', hsome⟩ :=
      linkWrapper_tail hq h.positive hnot (hlive 0 h.positive)
    refine ⟨layers', L 0 ++ [a], hrun, hq', by simp, ?_, hsome⟩
    rw [hlow rfl]
    exact List.pairwise_singleton _ _
  · obtain ⟨layers', hrun, hq', hsome⟩ :=
      linkWrapper_after hq h.positive hnot (hlive 0 h.positive) hsplit
    refine ⟨layers', p ++ w.1 :: a :: q, hrun, hq', ?_, ?_, hsome⟩
    · intro b
      rw [hsplit, List.mem_append, List.mem_cons, List.mem_cons, List.mem_append,
        List.mem_cons]
      tauto
    · have hsorted := h.sorted
      have hmem : ∀ x, x ∈ L 0 ↔ x ∈ p ∨ x = w.1 ∨ x ∈ q := by
        intro x
        rw [hsplit, List.mem_append, List.mem_cons]
      rw [hsplit, List.pairwise_append, List.pairwise_cons] at hsorted
      obtain ⟨hp, ⟨hwq, hqq⟩, hpq⟩ := hsorted
      -- Where the new item stands among the old ones.
      have hbefore : ∀ x ∈ p ++ [w.1], KeyLt c.cmp items' x a := by
        intro x hx u v hu hv
        have hxL : x ∈ L 0 := by
          rw [hmem]
          simpa [or_assoc] using Or.inl (List.mem_append.mp hx)
        rw [hold x (ne_of_mem_of_not_mem hxL hnot)] at hu
        rw [hnew v hv]
        exact lt_of_passed h hsplit hle habsent x hx u hu
      have hafter : ∀ x ∈ q, KeyLt c.cmp items' a x := by
        intro x hx u v hu hv
        have hxL : x ∈ L 0 := (hmem x).mpr (Or.inr (Or.inr hx))
        rw [hold x (ne_of_mem_of_not_mem hxL hnot)] at hv
        obtain ⟨v', hv', hpos⟩ := hgt x hx
        rw [hv] at hv'
        cases hv'
        rw [hnew u hu]
        exact (c.lt_iff key v.key).mpr hpos
      refine List.pairwise_append.mpr ⟨?_, List.pairwise_cons.mpr ⟨?_,
        List.pairwise_cons.mpr ⟨hafter, ?_⟩⟩, ?_⟩
      · refine List.Pairwise.imp_of_mem ?_ hp
        intro x y hx hy hxy
        exact hlt ((hmem x).mpr (Or.inl hx)) ((hmem y).mpr (Or.inl hy)) hxy
      · intro x hx
        rcases List.mem_cons.mp hx with rfl | hx
        · exact hbefore w.1 (by simp)
        · exact hlt ((hmem _).mpr (Or.inr (Or.inl rfl)))
            ((hmem x).mpr (Or.inr (Or.inr hx))) (hwq x hx)
      · refine List.Pairwise.imp_of_mem ?_ hqq
        intro x y hx hy hxy
        exact hlt ((hmem x).mpr (Or.inr (Or.inr hx))) ((hmem y).mpr (Or.inr (Or.inr hy))) hxy
      · intro x hx y hy
        rcases List.mem_cons.mp hy with rfl | hy
        · exact hlt ((hmem x).mpr (Or.inl hx)) ((hmem _).mpr (Or.inr (Or.inl rfl)))
            (hpq x hx w.1 List.mem_cons_self)
        rcases List.mem_cons.mp hy with rfl | hy
        · exact hbefore x (List.mem_append_left _ hx)
        · exact hlt ((hmem x).mpr (Or.inl hx)) ((hmem y).mpr (Or.inr (Or.inr hy)))
            (hpq x hx y (List.mem_cons_of_mem _ hy))

/-- The wrappers of a new item do not disturb the layers. -/
theorem allocWrappers_queues (hq : Queues layers N L) (hnot : ∀ i, i < N → a ∉ L i) :
    Queues (allocWrappers layers a N) N L ∧
      ∀ i, i < N → ((allocWrappers layers a N).entry (a, i)).isSome := by
  refine ⟨?_, ?_⟩
  · intro i hi
    refine ⟨(hq i hi).nodup, (hq i hi).first, (hq i hi).last, (hq i hi).chain.congr ?_⟩
    intro w hw
    refine if_neg ?_
    rintro ⟨heq, -⟩
    exact hnot i hi (heq ▸ (mem_wrappersOf.mp hw).1)
  · intro i hi
    have hentry : (allocWrappers layers a N).entry (a, i) = some ⟨none, none⟩ :=
      if_pos ⟨rfl, hi⟩
    rw [hentry]
    rfl

theorem Layered.brk_notMem (h : Layered skl L) (hi : i < skl.numLayers) :
    skl.items.brk ∉ L i := by
  intro hmem
  obtain ⟨item, hitem⟩ := h.live_of_mem hi hmem
  rw [Heap.brk_apply] at hitem
  cases hitem

/-- A new item, linked into the lowest layer in any way, is promoted on links that
land on their own layers. -/
theorem Layered.insertNew_spec (h : Layered skl L) (hpos : 0 < skl.numLayers)
    {prevItem : Option SklItemWrapper} (path : ℕ → Option SklItemWrapper) (key : K) (value : V)
    (random : ℕ → ℕ) {layers₁ : Tailqs ℕ SklItemWrapper} {l : List Addr}
    (hlink : linkWrapper (allocWrappers skl.layers skl.items.brk skl.numLayers) 0
      (prevItem.map fun w => (w.1, 0)) (skl.items.brk, 0) = some layers₁)
    (hq₁ : Queues layers₁ skl.numLayers (Function.update L 0 l))
    (hl : ∀ b, b ∈ l ↔ b ∈ L 0 ∨ b = skl.items.brk)
    (hlive : ∀ i, i < skl.numLayers → (layers₁.entry (skl.items.brk, i)).isSome)
    (hpath : ∀ i, 0 < i → i < skl.numLayers → promoted skl.probability random i = true →
      OnLayer L i (path i)) :
    ∃ skl' L' check, insertNew skl key value random prevItem path = some skl' ∧
      Layered skl' L' ∧ L' 0 = l ∧ skl'.count = skl.count + 1 ∧
      skl'.numLayers = skl.numLayers ∧
      skl'.items = (skl.items.alloc ⟨key, value, fun _ => false⟩).1.put skl.items.brk
        ⟨key, value, check⟩ := by
  set a := skl.items.brk with ha
  have hnotlive : ∀ b item, skl.items b = some item → b ≠ a := by
    rintro b item hb rfl
    rw [Heap.brk_apply] at hb
    cases hb
  let cell : SklItem K V := { key := key, value := value, layerCheck := fun _ => false }
  let items₁ := (skl.items.alloc cell).1
  have hnew₁ : items₁ a = some cell := by simp [items₁, Heap.alloc_apply, ha]
  have hupper : ∀ j, 0 < j → Function.update L 0 l j = L j := fun j hj =>
    Function.update_of_ne (by omega) _ _
  obtain ⟨layers₂, L', check, hpromote, hq₂, hlow₂, hmem₂, hclow, hcmem⟩ :=
    promote_spec (a := a) (skl.numLayers - 1) 0 layers₁ (Function.update L 0 l)
      (Function.update (fun _ => false) 0 true) (by omega) hq₁
      (by
        intro j hj hjN
        rw [hupper j hj]
        exact h.brk_notMem hjN)
      hlive
      (by
        intro j hj hjN hp w hw
        rw [hupper j hj]
        exact hpath j hj hjN hp w hw)
      (fun j hj => Function.update_of_ne (by omega) _ _)
  have hcheck0 : check 0 = true := by
    rw [hclow 0 (Nat.le_refl 0), Function.update_self]
  let items₂ := items₁.put a { cell with layerCheck := check }
  have hnew₂ : items₂ a = some { cell with layerCheck := check } := Heap.put_self hnew₁
  have hold₂ : ∀ b, b ≠ a → items₂ b = skl.items b := by
    intro b hb
    rw [Heap.put_of_ne hb, Heap.alloc_apply, if_neg hb]
  let skl' : SkipList K V :=
    { skl with items := items₂, layers := layers₂, count := skl.count + 1 }
  have hread : ∀ b item, items₂ b = some item →
      (b = a ∧ item.layerCheck = check) ∨ (b ≠ a ∧ skl.items b = some item) := by
    intro b item hitem
    by_cases hb : b = a
    · subst hb
      rw [hnew₂] at hitem
      cases hitem
      exact Or.inl ⟨rfl, rfl⟩
    · rw [hold₂ b hb] at hitem
      exact Or.inr ⟨hb, hitem⟩
  have hL0 : L' 0 = l := by
    rw [hlow₂ 0 (Nat.le_refl 0), Function.update_self]
  refine ⟨skl', L', check, ?_, ⟨fun _ _ _ => hpos, hq₂, ?_, ?_, ?_⟩, hL0, rfl, rfl, rfl⟩
  · have hmod : items₁.modify a (fun item => { item with layerCheck := check }) =
        some items₂ := Heap.modify_eq_some _ hnew₁
    have hpromote' : promote skl.probability random path a (skl.numLayers - 1) 1 true layers₁
        (Function.update (fun _ => false) 0 true) = some (layers₂, check) := hpromote
    simp only [insertNew, Heap.alloc_snd, ← ha, hlink, hpromote', Option.bind_eq_bind,
      Option.bind_some]
    rw [hmod]
    rfl
  · intro i hi b
    -- On every layer the items are the old ones, and the new one if promoted.
    have hmem : b ∈ L' i ↔ b ∈ L i ∨ b = a ∧ check i = true := by
      cases i with
      | zero =>
          rw [hL0, hl, hcheck0]
          simp
      | succ i =>
          rw [hmem₂ (i + 1) (Nat.succ_pos i) hi, hupper _ (Nat.succ_pos i),
            hcmem (i + 1) (Nat.succ_pos i) hi]
    rw [hmem, h.member i hi]
    constructor
    · rintro (⟨item, hitem, hc⟩ | ⟨rfl, hc⟩)
      · exact ⟨item, (hold₂ b (hnotlive b item hitem)).trans hitem, hc⟩
      · exact ⟨_, hnew₂, hc⟩
    · rintro ⟨item, hitem, hc⟩
      rcases hread b item hitem with ⟨rfl, heq⟩ | ⟨-, hold⟩
      · rw [heq] at hc
        exact Or.inr ⟨rfl, hc⟩
      · exact Or.inl ⟨item, hold, hc⟩
  · intro b item hitem
    rcases hread b item hitem with ⟨-, heq⟩ | ⟨-, hold⟩
    · rw [heq]
      exact hcheck0
    · exact h.lowest b item hold
  · intro b item i hitem hi hc
    rcases hread b item hitem with ⟨-, heq⟩ | ⟨-, hold⟩
    · rw [heq] at hc ⊢
      cases i with
      | zero => exact hcheck0
      | succ i =>
          rw [hcmem (i + 1 + 1) (by omega) hi, promoted, Bool.and_eq_true] at hc
          rw [hcmem (i + 1) (by omega) (Nat.lt_of_succ_lt hi)]
          exact hc.1
    · exact h.nested b item i hold hi hc

/-- A new item is inserted where all its links land on their own layers. -/
theorem insertNew_spec (h : Wf c skl L) {prevItem : Option SklItemWrapper}
    {path : ℕ → Option SklItemWrapper} (value : V) {random : ℕ → ℕ}
    (hreached : Reached c.cmp skl L key prevItem) (hlow : prevItem = none → L 0 = [])
    (habsent : ∀ a item, skl.items a = some item → item.key ≠ key)
    (hpath : ∀ i, 0 < i → i < skl.numLayers → promoted skl.probability random i = true →
      OnLayer L i (path i)) :
    ∃ skl' L', insertNew skl key value random prevItem path = some skl' ∧ Wf c skl' L' ∧
      skl'.items.bag pair = ⟨key, value⟩ ::ₘ skl.items.bag pair := by
  obtain ⟨hq₀, hlive₀⟩ :=
    allocWrappers_queues h.queues fun i hi => h.layered.brk_notMem hi
  let cell : SklItem K V := { key := key, value := value, layerCheck := fun _ => false }
  let items₁ := (skl.items.alloc cell).1
  have hnew₁ : items₁ skl.items.brk = some cell := by simp [items₁, Heap.alloc_apply]
  obtain ⟨layers₁, l, hlink, hq₁, hl, hsorted, hsome₁⟩ :=
    sorted_insert h hreached hlow habsent hlive₀ hq₀ (h.layered.brk_notMem h.positive)
      items₁ (by
        intro b hb
        rw [Heap.alloc_apply, if_neg hb])
      (by
        intro item hitem
        rw [hnew₁] at hitem
        cases hitem
        rfl)
  obtain ⟨skl', L', check, hins, hlayered, hL0, hcount, hnum, hitems⟩ :=
    h.layered.insertNew_spec h.positive path key value random hlink hq₁ hl
      (fun j hj => (hsome₁ (skl.items.brk, j)).mpr (hlive₀ j hj)) hpath
  have hsame : Heap.SameThrough pair items₁ skl'.items := by
    rw [hitems]
    exact Heap.sameThrough_put hnew₁ rfl
  refine ⟨skl', L', hins, ⟨hnum ▸ h.positive, hlayered.queues, hlayered.member,
    hlayered.lowest, hlayered.nested, ?_, ?_⟩, ?_⟩
  · rw [hL0]
    refine hsorted.imp ?_
    intro x y hxy u v hu hv
    obtain ⟨u', hu', hku⟩ := hsame.symm.exists_eq_some hu
    obtain ⟨v', hv', hkv⟩ := hsame.symm.exists_eq_some hv
    have hku' : u'.key = u.key := congrArg Sigma.fst hku
    have hkv' : v'.key = v.key := congrArg Sigma.fst hkv
    rw [← hku', ← hkv']
    exact hxy u' v' hu' hv'
  · rw [hcount, hsame.live_eq, Heap.live_alloc, Finset.card_insert_of_notMem
      skl.items.brk_notMem_live, h.count]
  · rw [hsame.bag_eq, Heap.bag_alloc]
    rfl

/-! ## Removal -/

/-- The removal loop takes an item off the layers it is on. -/
theorem unlinkLayers_spec (layerCheck : ℕ → Bool) :
    ∀ (n i : ℕ) (layers : Tailqs ℕ SklItemWrapper) (L : ℕ → List Addr), i + n = N →
      Queues layers N L → (∀ j, i ≤ j → j < N → (layerCheck j = true ↔ a ∈ L j)) →
      ∃ layers' L', unlinkLayers layerCheck a n i layers = some layers' ∧
        Queues layers' N L' ∧ (∀ j, j < i → L' j = L j) ∧
        ∀ j, i ≤ j → j < N → L' j = (L j).erase a := by
  intro n
  induction n with
  | zero =>
      intro i layers L hN hq _
      refine ⟨layers, L, rfl, hq, fun _ _ => rfl, ?_⟩
      intro j hj hjN
      omega
  | succ n ih =>
      intro i layers L hN hq hcheck
      have hi : i < N := by omega
      by_cases hc : layerCheck i = true
      · obtain ⟨p, q, hsplit⟩ := List.append_of_mem ((hcheck i (Nat.le_refl i) hi).mp hc)
        have hholds := hq i hi
        have hnd := List.Nodup.of_map _ hholds.nodup
        rw [hsplit, wrappersOf_split] at hholds
        obtain ⟨layers₁, hrun₁, hholds₁, hframe⟩ := hholds.remove
        have hap : a ∉ p := by
          rw [hsplit, List.nodup_append] at hnd
          exact fun hmem => hnd.2.2 a hmem a List.mem_cons_self rfl
        have hl : wrappersOf i p ++ wrappersOf i q = wrappersOf i ((L i).erase a) := by
          rw [hsplit, List.erase_append_right _ hap, List.erase_cons_head]
          simp [wrappersOf]
        rw [hl] at hholds₁
        have hq₁ := hq.update hholds₁ hframe (by
          intro w hw
          rw [← wrappersOf_split] at hw
          exact (mem_wrappersOf.mp hw).2)
        have hother : ∀ j, j ≠ i → Function.update L i ((L i).erase a) j = L j := fun j hj =>
          Function.update_of_ne hj _ _
        obtain ⟨layers', L', hrun, hq', hlow, hhigh⟩ := ih (i + 1) layers₁ _ (by omega) hq₁ (by
          intro j hj hjN
          rw [hother j (by omega)]
          exact hcheck j (by omega) hjN)
        refine ⟨layers', L', by simp [unlinkLayers, hc, hrun₁, hrun], hq', ?_, ?_⟩
        · intro j hj
          rw [hlow j (by omega), hother j (by omega)]
        · intro j hj hjN
          by_cases hji : j = i
          · subst hji
            rw [hlow j (Nat.lt_succ_self j), Function.update_self]
          · rw [hhigh j (by omega) hjN, hother j hji]
      · obtain ⟨layers', L', hrun, hq', hlow, hhigh⟩ := ih (i + 1) layers L (by omega) hq
          (fun j hj hjN => hcheck j (by omega) hjN)
        refine ⟨layers', L', by simp [unlinkLayers, hc, hrun], hq', ?_, ?_⟩
        · intro j hj
          exact hlow j (by omega)
        · intro j hj hjN
          by_cases hji : j = i
          · subst hji
            have hnot : a ∉ L j := fun hmem => hc ((hcheck j (Nat.le_refl j) hjN).mpr hmem)
            rw [hlow j (Nat.lt_succ_self j), List.erase_of_not_mem hnot]
          · exact hhigh j (by omega) hjN

/-- Removing an item takes it off every layer. -/
theorem Layered.skiplistRemoveInternal_spec (h : Layered skl L) {item : SklItem K V}
    (ha : skl.items a = some item) :
    ∃ skl', skiplistRemoveInternal skl a item = some skl' ∧
      Layered skl' (fun j => (L j).erase a) ∧ skl'.items = skl.items.kill a ∧
      skl'.count = skl.count ∧ skl'.numLayers = skl.numLayers := by
  obtain ⟨layers', L', hrun, hq, -, herase⟩ := unlinkLayers_spec item.layerCheck
    skl.numLayers 0 skl.layers L (Nat.zero_add _) h.queues (by
      intro j _ hj
      rw [h.member j hj]
      constructor
      · intro hc
        exact ⟨item, ha, hc⟩
      · rintro ⟨item', hitem', hc⟩
        rw [ha] at hitem'
        cases hitem'
        exact hc)
  have hq' : Queues layers' skl.numLayers fun j => (L j).erase a := by
    intro j hj
    have hj' := hq j hj
    rwa [herase j (Nat.zero_le j) hj] at hj'
  have hread : ∀ b, b ≠ a → (skl.items.kill a) b = skl.items b := by
    intro b hb
    rw [Heap.kill_apply, if_neg hb]
  have hkilled : ∀ b x, (skl.items.kill a) b = some x → b ≠ a ∧ skl.items b = some x := by
    intro b x hx
    by_cases hb : b = a
    · rw [Heap.kill_apply, if_pos hb] at hx
      cases hx
    · rw [hread b hb] at hx
      exact ⟨hb, hx⟩
  refine ⟨{ skl with items := skl.items.kill a, layers := freeWrappers layers' a }, ?_,
    ⟨?_, ?_, ?_, ?_, ?_⟩, rfl, rfl, rfl⟩
  · simp [skiplistRemoveInternal, hrun, Heap.free_eq_some ha]
  · intro b x hx
    exact h.positive b x (hkilled b x hx).2
  · intro j hj
    refine ⟨(hq' j hj).nodup, (hq' j hj).first, (hq' j hj).last, (hq' j hj).chain.congr ?_⟩
    intro w hw
    refine if_neg ?_
    rintro heq
    have hmem := (mem_wrappersOf.mp hw).1
    rw [heq] at hmem
    exact (h.nodup_layer hj).not_mem_erase hmem
  · intro j hj b
    rw [(h.nodup_layer hj).mem_erase_iff, h.member j hj]
    constructor
    · rintro ⟨hb, x, hx, hc⟩
      exact ⟨x, (hread b hb).trans hx, hc⟩
    · rintro ⟨x, hx, hc⟩
      obtain ⟨hb, hx'⟩ := hkilled b x hx
      exact ⟨hb, x, hx', hc⟩
  · intro b x hx
    exact h.lowest b x (hkilled b x hx).2
  · intro b x j hx hj hc
    exact h.nested b x j (hkilled b x hx).2 hj hc

theorem skiplistRemoveInternal_spec (h : Wf c skl L) {item : SklItem K V}
    (ha : skl.items a = some item) :
    ∃ skl' L', skiplistRemoveInternal skl a item = some skl' ∧
      Wf c { skl' with count := skl'.count - 1 } L' ∧
      skl.items.bag pair = pair item ::ₘ skl'.items.bag pair := by
  obtain ⟨skl', hrun, hlayered, hitems, hcount, hnum⟩ :=
    h.layered.skiplistRemoveInternal_spec ha
  refine ⟨skl', fun j => (L j).erase a, hrun, ⟨hnum ▸ h.positive, hlayered.queues,
    hlayered.member, hlayered.lowest, hlayered.nested, ?_, ?_⟩, ?_⟩
  · refine List.Pairwise.imp ?_ (h.sorted.sublist List.erase_sublist)
    intro x y hxy u v hu hv
    have hkilled : ∀ b z, skl'.items b = some z → skl.items b = some z := by
      intro b z hz
      rw [hitems, Heap.kill_apply] at hz
      by_cases hb : b = a
      · rw [if_pos hb] at hz
        cases hz
      · rwa [if_neg hb] at hz
    exact hxy u v (hkilled x u hu) (hkilled y v hv)
  · show skl'.count - 1 = skl'.items.live.card
    rw [hcount, hitems, Heap.live_kill,
      Finset.card_erase_of_mem (Heap.mem_live_of_eq_some ha), h.count]
  · rw [hitems]
    exact Heap.bag_kill ha

/-! ## Finding an item -/

/-- Whether the item reached compares equal decides whether any item does. -/
theorem Layered.itemWithKey_reached (h : Layered skl L) (hpos : 0 < skl.numLayers)
    {c : Comparator K} (hsorted : (L 0).Pairwise (KeyLt c.cmp skl.items))
    {prevItem : Option SklItemWrapper} (hreached : Reached c.cmp skl L key prevItem) :
    (∃ a item, itemWithKey c.cmp skl key prevItem = some (some (a, item)) ∧
        skl.items a = some item ∧ c.cmp item.key key = 0) ∨
      (itemWithKey c.cmp skl key prevItem = some none ∧
        ∀ a item, skl.items a = some item → c.cmp item.key key ≠ 0) := by
  rcases hreached with ⟨rfl, habove⟩ | ⟨w, p, q, rfl, hsplit, ⟨y, hy, hle⟩, habove⟩
  · refine Or.inr ⟨rfl, ?_⟩
    intro a item hitem hcmp
    obtain ⟨x, hx, hgt⟩ := habove a ((h.mem_lowest hpos).mpr ⟨item, hitem⟩)
    rw [hitem] at hx
    cases hx
    exact absurd hcmp (Int.ne_of_gt hgt)
  by_cases heq : c.cmp y.key key = 0
  · exact Or.inl ⟨w.1, y, by simp [itemWithKey, hy, heq], hy, heq⟩
  · refine Or.inr ⟨by simp [itemWithKey, hy, heq], ?_⟩
    intro a item hitem hcmp
    have hmem : a ∈ L 0 := (h.mem_lowest hpos).mpr ⟨item, hitem⟩
    rw [hsplit, List.mem_append, List.mem_cons] at hmem
    rcases hmem with hmem | rfl | hmem
    · -- An item before the one reached has a smaller key than that one.
      rw [hsplit, List.pairwise_append] at hsorted
      have hlt := hsorted.2.2 a hmem w.1 List.mem_cons_self item y hitem hy
      have hkey : c.cmp key item.key ≤ 0 := (c.dual item.key key).mp (Int.le_of_eq hcmp.symm)
      have hge := (c.dual y.key key).mpr (c.trans _ _ _ hkey (Int.le_of_lt hlt))
      exact heq (Int.le_antisymm hle hge)
    · rw [hitem] at hy
      cases hy
      exact heq hcmp
    · obtain ⟨x, hx, hgt⟩ := habove a hmem
      rw [hitem] at hx
      cases hx
      exact absurd hcmp (Int.ne_of_gt hgt)

/-- Whether the item reached has the key decides whether any item has it. -/
theorem itemWithKey_spec (h : Wf c skl L) {prevItem : Option SklItemWrapper}
    (hreached : Reached c.cmp skl L key prevItem) :
    (∃ a item, itemWithKey c.cmp skl key prevItem = some (some (a, item)) ∧
        skl.items a = some item ∧ item.key = key) ∨
      (itemWithKey c.cmp skl key prevItem = some none ∧
        ∀ a item, skl.items a = some item → item.key ≠ key) := by
  rcases h.layered.itemWithKey_reached h.positive h.sorted hreached with
    ⟨a, item, hfound, hitem, hcmp⟩ | ⟨hnone, habsent⟩
  · exact Or.inl ⟨a, item, hfound, hitem, c.eq_of_cmp _ _ hcmp⟩
  · refine Or.inr ⟨hnone, ?_⟩
    rintro a item hitem rfl
    exact habsent a item hitem (cmp_self c _)

/-- A stored value leaves the key and the layers of an item. -/
theorem putValue_read {item : SklItem K V} (ha : skl.items a = some item) {value : V}
    {x : SklItem K V}
    (hx : (skl.items.put a { item with value := value }) b = some x) :
    ∃ y, skl.items b = some y ∧ y.key = x.key ∧ y.layerCheck = x.layerCheck := by
  by_cases hb : b = a
  · subst hb
    rw [Heap.put_self ha] at hx
    cases hx
    exact ⟨item, ha, rfl, rfl⟩
  · rw [Heap.put_of_ne hb] at hx
    exact ⟨x, hx, rfl, rfl⟩

theorem Layered.putValue (h : Layered skl L) {item : SklItem K V} (ha : skl.items a = some item)
    (value : V) :
    Layered { skl with items := skl.items.put a { item with value := value } } L := by
  refine ⟨?_, h.queues, ?_, ?_, ?_⟩
  · intro b x hx
    obtain ⟨y, hy, -⟩ := putValue_read ha hx
    exact h.positive b y hy
  · intro i hi b
    rw [h.member i hi]
    constructor
    · rintro ⟨x, hx, hc⟩
      by_cases hb : b = a
      · subst hb
        rw [ha] at hx
        cases hx
        exact ⟨_, Heap.put_self ha, hc⟩
      · exact ⟨x, (Heap.put_of_ne hb).trans hx, hc⟩
    · rintro ⟨x, hx, hc⟩
      obtain ⟨y, hy, -, hcheck⟩ := putValue_read ha hx
      exact ⟨y, hy, by rw [hcheck, hc]⟩
  · intro b x hx
    obtain ⟨y, hy, -, hcheck⟩ := putValue_read ha hx
    rw [← hcheck]
    exact h.lowest b y hy
  · intro b x i hx hi hc
    obtain ⟨y, hy, -, hcheck⟩ := putValue_read ha hx
    rw [← hcheck] at hc ⊢
    exact h.nested b y i hy hi hc

theorem Wf.putValue (h : Wf c skl L) {item : SklItem K V} (ha : skl.items a = some item)
    (value : V) : Wf c { skl with items := skl.items.put a { item with value := value } } L := by
  have hlayered := h.layered.putValue ha value
  refine ⟨h.positive, hlayered.queues, hlayered.member, hlayered.lowest, hlayered.nested, ?_, ?_⟩
  · refine h.sorted.imp ?_
    intro x y hxy u v hu hv
    obtain ⟨u', hu', hku, -⟩ := putValue_read ha hu
    obtain ⟨v', hv', hkv, -⟩ := putValue_read ha hv
    rw [← hku, ← hkv]
    exact hxy u' v' hu' hv'
  · show skl.count = (skl.items.put a _).live.card
    rw [Heap.live_put, h.count]

end SkipList
end LibHL
