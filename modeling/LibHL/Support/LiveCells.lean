import LibHL.Support.Heap
import Mathlib.Data.Finset.Card
import Mathlib.Data.Finset.Image
import Mathlib.Data.Multiset.Filter

/-!
# Live cells of a heap

The live cells form a finite set, and what they hold, seen through a function
of the cell contents, forms a bag.  Writes that do not change what the function
sees change neither; allocation adds one element, and release removes one.
-/

namespace LibHL
namespace Heap

variable {α β : Type*} {h h' : Heap α} {a : Addr} {v : α}

/-- The addresses of the live cells. -/
def live (h : Heap α) : Finset Addr := (Finset.range h.brk).filter fun a => (h a).isSome

theorem mem_live : a ∈ h.live ↔ (h a).isSome := by
  rw [live, Finset.mem_filter, Finset.mem_range]
  constructor
  · rintro ⟨-, hsome⟩
    exact hsome
  · intro hsome
    obtain ⟨v, hv⟩ := Option.isSome_iff_exists.mp hsome
    exact ⟨lt_brk_of_eq_some hv, hsome⟩

theorem mem_live_of_eq_some (ha : h a = some v) : a ∈ h.live := by
  rw [mem_live, ha]
  rfl

theorem exists_of_mem_live (ha : a ∈ h.live) : ∃ v, h a = some v :=
  Option.isSome_iff_exists.mp (mem_live.mp ha)

theorem card_live_le_brk (h : Heap α) : h.live.card ≤ h.brk := by
  calc h.live.card ≤ (Finset.range h.brk).card := Finset.card_filter_le _ _
    _ = h.brk := Finset.card_range _

theorem length_le_brk {ps : List Addr} (hnodup : ps.Nodup) (hlive : ∀ a ∈ ps, a ∈ h.live) :
    ps.length ≤ h.brk := by
  rw [← List.toFinset_card_of_nodup hnodup]
  refine (Finset.card_le_card fun a ha => ?_).trans h.card_live_le_brk
  exact hlive a (List.mem_toFinset.mp ha)

@[simp] theorem live_empty : (empty : Heap α).live = ∅ := rfl

theorem live_alloc (h : Heap α) (v : α) : (h.alloc v).1.live = insert h.brk h.live := by
  ext b
  rw [Finset.mem_insert, mem_live, mem_live, alloc_apply]
  by_cases hb : b = h.brk
  · simp [hb]
  · simp [hb]

theorem live_kill (h : Heap α) (a : Addr) : (h.kill a).live = h.live.erase a := by
  ext b
  rw [Finset.mem_erase, mem_live, mem_live, kill_apply]
  by_cases hb : b = a
  · simp [hb]
  · simp [hb]

theorem brk_notMem_live (h : Heap α) : h.brk ∉ h.live := by
  rw [mem_live, brk_apply]
  simp

theorem filterMap_congr_of_mem {γ : Type*} {s : Multiset γ} {g g' : γ → Option β}
    (hg : ∀ x ∈ s, g x = g' x) : s.filterMap g = s.filterMap g' := by
  induction s using Quotient.inductionOn with
  | h l => exact congrArg _ (List.filterMap_congr hg)

/-- What the live cells hold, as seen through `f`. -/
def bag (f : α → β) (h : Heap α) : Multiset β :=
  h.live.val.filterMap fun a => (h a).map f

/-- Both heaps have the same live cells, and `f` sees the same in them. -/
def SameThrough (f : α → β) (h h' : Heap α) : Prop :=
  ∀ a, (h' a).map f = (h a).map f

variable {f : α → β}

theorem SameThrough.refl (h : Heap α) : SameThrough f h h := fun _ => rfl

theorem SameThrough.trans {h'' : Heap α} (h₁ : SameThrough f h h')
    (h₂ : SameThrough f h' h'') : SameThrough f h h'' :=
  fun a => (h₂ a).trans (h₁ a)

theorem SameThrough.symm (hs : SameThrough f h h') : SameThrough f h' h :=
  fun a => (hs a).symm

theorem SameThrough.live_eq (hs : SameThrough f h h') : h'.live = h.live := by
  ext a
  rw [mem_live, mem_live, ← Option.isSome_map, hs a, Option.isSome_map]

theorem SameThrough.bag_eq (hs : SameThrough f h h') : bag f h' = bag f h := by
  rw [bag, bag, hs.live_eq]
  congr 1
  funext a
  exact hs a

theorem SameThrough.exists_eq_some (hs : SameThrough f h h') (ha : h a = some v) :
    ∃ w, h' a = some w ∧ f w = f v := by
  have hmap := hs a
  rw [ha, Option.map_some] at hmap
  obtain ⟨w, hw, heq⟩ := Option.map_eq_some_iff.mp hmap
  exact ⟨w, hw, heq⟩

theorem sameThrough_put {w : α} (ha : h a = some v) (hw : f w = f v) :
    SameThrough f h (h.put a w) := by
  intro b
  by_cases hb : b = a
  · subst hb
    rw [put_self ha, ha, Option.map_some, Option.map_some, hw]
  · rw [put_of_ne hb]

@[simp] theorem bag_empty : bag f (empty : Heap α) = 0 := rfl

theorem mem_bag_of_eq_some (ha : h a = some v) : f v ∈ bag f h := by
  rw [bag, Multiset.mem_filterMap]
  exact ⟨a, mem_live_of_eq_some ha, by rw [ha, Option.map_some]⟩

theorem exists_of_mem_bag {x : β} (hx : x ∈ bag f h) : ∃ a v, h a = some v ∧ f v = x := by
  rw [bag, Multiset.mem_filterMap] at hx
  obtain ⟨a, -, hax⟩ := hx
  obtain ⟨v, hv, heq⟩ := Option.map_eq_some_iff.mp hax
  exact ⟨a, v, hv, heq⟩

theorem bag_alloc (h : Heap α) (v : α) : bag f (h.alloc v).1 = f v ::ₘ bag f h := by
  have hself : ((h.alloc v).1 h.brk).map f = some (f v) := by
    simp [alloc_apply]
  rw [bag, live_alloc, Finset.insert_val_of_notMem h.brk_notMem_live,
    Multiset.filterMap_cons_some (fun a => ((h.alloc v).1 a).map f) _ _ hself]
  congr 1
  refine filterMap_congr_of_mem ?_
  intro b hb
  have hne : b ≠ h.brk := by
    rintro rfl
    exact h.brk_notMem_live hb
  rw [alloc_apply, if_neg hne]

theorem bag_kill (ha : h a = some v) : bag f h = f v ::ₘ bag f (h.kill a) := by
  have hself : (h a).map f = some (f v) := by
    rw [ha, Option.map_some]
  have hlive : h.live = insert a (h.kill a).live := by
    rw [live_kill, Finset.insert_erase (mem_live_of_eq_some ha)]
  have hnot : a ∉ (h.kill a).live := by
    rw [live_kill]
    exact Finset.notMem_erase a _
  rw [bag, hlive, Finset.insert_val_of_notMem hnot,
    Multiset.filterMap_cons_some (fun b => (h b).map f) _ _ hself]
  congr 1
  refine filterMap_congr_of_mem ?_
  intro b hb
  have hne : b ≠ a := by
    rintro rfl
    exact hnot hb
  rw [kill_apply, if_neg hne]

theorem bag_put {w : α} (ha : h a = some v) : bag f (h.put a w) = f w ::ₘ bag f (h.kill a) := by
  have hsame : SameThrough f (h.kill a) ((h.put a w).kill a) := by
    intro b
    rw [kill_apply, kill_apply]
    by_cases hb : b = a
    · rw [if_pos hb, if_pos hb]
    · rw [if_neg hb, if_neg hb, put_of_ne hb]
  rw [bag_kill (put_self ha), hsame.bag_eq]

theorem live_put (h : Heap α) (a : Addr) (w : α) : (h.put a w).live = h.live := by
  ext b
  rw [mem_live, mem_live, put_apply]
  by_cases hb : b = a ∧ (h a).isSome
  · rw [if_pos hb, hb.1]
    simp [hb.2]
  · rw [if_neg hb]

theorem card_bag (h : Heap α) : (bag f h).card = h.live.card := by
  have hcard : ∀ s : Multiset Addr, (∀ a ∈ s, a ∈ h.live) →
      (s.filterMap fun a => (h a).map f).card = s.card := by
    intro s
    induction s using Multiset.induction_on with
    | empty => exact fun _ => rfl
    | cons a s ih =>
        intro hs
        obtain ⟨v, hv⟩ := exists_of_mem_live (hs a (Multiset.mem_cons_self a s))
        have hself : (h a).map f = some (f v) := by rw [hv, Option.map_some]
        rw [Multiset.filterMap_cons_some (fun a => (h a).map f) _ _ hself,
          Multiset.card_cons, Multiset.card_cons,
          ih fun b hb => hs b (Multiset.mem_cons_of_mem hb)]
  exact hcard h.live.val fun _ ha => ha

theorem bag_eq_zero_iff : bag f h = 0 ↔ h.live = ∅ := by
  constructor
  · intro hbag
    rw [Finset.eq_empty_iff_forall_notMem]
    intro a ha
    obtain ⟨v, hv⟩ := exists_of_mem_live ha
    have hmem : f v ∈ bag f h := mem_bag_of_eq_some hv
    rw [hbag] at hmem
    exact absurd hmem (Multiset.notMem_zero _)
  · intro hlive
    rw [bag, hlive]
    rfl

/-! ## Two heaps in one store -/

/-- Where the cells of the second heap go. -/
def shifted (h₁ : Heap α) : Addr ↪ Addr := ⟨fun a => h₁.brk + a, fun _ _ => Nat.add_left_cancel⟩

theorem live_beside (h₁ h₂ : Heap α) (g : α → α) :
    (h₁.beside h₂ g).live = h₁.live ∪ h₂.live.map (shifted h₁) := by
  ext a
  rw [Finset.mem_union, Finset.mem_map, mem_live]
  by_cases ha : a < h₁.brk
  · rw [beside_left ha, mem_live]
    constructor
    · exact Or.inl
    · rintro (hin | ⟨b, -, hb⟩)
      · exact hin
      · have hge : h₁.brk ≤ a := hb ▸ Nat.le_add_right h₁.brk b
        exact absurd ha (Nat.not_lt.mpr hge)
  · obtain ⟨b, rfl⟩ := Nat.exists_eq_add_of_le (Nat.not_lt.mp ha)
    rw [beside_right, Option.isSome_map]
    constructor
    · exact fun hb => Or.inr ⟨b, mem_live.mpr hb, rfl⟩
    · rintro (hin | ⟨b', hb', heq⟩)
      · obtain ⟨v, hv⟩ := exists_of_mem_live hin
        exact absurd (lt_brk_of_eq_some hv) ha
      · rw [← Nat.add_left_cancel heq]
        exact mem_live.mp hb'

theorem disjoint_live_shifted (h₁ h₂ : Heap α) :
    Disjoint h₁.live (h₂.live.map (shifted h₁)) := by
  rw [Finset.disjoint_left]
  rintro a ha hmap
  obtain ⟨b, -, rfl⟩ := Finset.mem_map.mp hmap
  obtain ⟨v, hv⟩ := exists_of_mem_live ha
  exact absurd (lt_brk_of_eq_some hv) (Nat.not_lt.mpr (Nat.le_add_right h₁.brk b))

end Heap
end LibHL
