import LibHL.HashTable.Model
import Mathlib.Data.List.Perm.Basic
import Mathlib.Data.List.Nodup
import Mathlib.Tactic.Common

/-!
# The bucket invariant of the hash table

The bucket array and the iterator list register the same buckets, every bucket
records its own slot, and every item sits in the slot of its hash.  Each
operation of the table changes the items of one bucket, creates an empty
bucket, or moves items to freshly created buckets; this module says what the
first two do to the stored items, up to their order.
-/

namespace LibHL
namespace HashTable

/-- An item that belongs in slot `i` of a table with `size` slots. -/
structure Placed (seed : UInt32) (size i : ℕ) (it : HtItem) : Prop where
  keyNonempty : it.key ≠ []
  hash_eq : it.hash = htHashOneAtATime seed it.key
  slot : it.hash.toNat % size = i

/-- The bucket array and the iterator list are in step. -/
structure BucketsInv (seed : UInt32) (size : ℕ) (b : Buckets) : Prop where
  sizePos : 0 < size
  itemsLength : b.items.length = size
  registered : (b.items.filterMap id).Perm b.iteratorList
  nodup : b.iteratorList.Nodup
  bucket : ∀ i a, b.items[i]? = some (some a) →
    ∃ l, b.lists a = some l ∧ l.index = i ∧ ∀ it ∈ l.head, Placed seed size i it

/-- The items of a bucket, none for a dangling pointer. -/
def bucketItems (b : Buckets) (a : Addr) : List HtItem :=
  ((b.lists a).map ItemsList.head).getD []

/-- All items met along the iterator list. -/
def stored (b : Buckets) : List HtItem :=
  b.iteratorList.flatMap (bucketItems b)

/-- All items met along the bucket array. -/
def storedItems (b : Buckets) : List HtItem :=
  (b.items.filterMap id).flatMap (bucketItems b)

theorem bucketItems_of_eq_some {b : Buckets} {a : Addr} {l : ItemsList}
    (h : b.lists a = some l) : bucketItems b a = l.head := by
  simp [bucketItems, h]

variable {seed : UInt32} {size : ℕ} {b : Buckets}

namespace BucketsInv

theorem storedItems_perm (h : BucketsInv seed size b) :
    (storedItems b).Perm (stored b) :=
  h.registered.flatMap_right _

theorem mem_iteratorList_iff (h : BucketsInv seed size b) {a : Addr} :
    a ∈ b.iteratorList ↔ ∃ i : ℕ, b.items[i]? = some (some a) := by
  rw [← h.registered.mem_iff, List.mem_filterMap]
  constructor
  · rintro ⟨p, hp, rfl⟩
    exact List.mem_iff_getElem?.mp hp
  · rintro ⟨i, hi⟩
    exact ⟨some a, List.mem_of_getElem? hi, rfl⟩

/-- A registered bucket sits in the slot it records. -/
theorem bucket_of_mem (h : BucketsInv seed size b) {a : Addr}
    (ha : a ∈ b.iteratorList) :
    ∃ l, b.lists a = some l ∧ b.items[l.index]? = some (some a) ∧
      ∀ it ∈ l.head, Placed seed size l.index it := by
  obtain ⟨i, hi⟩ := h.mem_iteratorList_iff.mp ha
  obtain ⟨l, hl, rfl, hplaced⟩ := h.bucket i a hi
  exact ⟨l, hl, hi, hplaced⟩

theorem slot_lt (h : BucketsInv seed size b) (n : ℕ) :
    n % size < b.items.length := by
  rw [h.itemsLength]
  exact Nat.mod_lt n h.sizePos

/-- Two slots never share a bucket. -/
theorem slot_unique (h : BucketsInv seed size b) {i j : ℕ} {a : Addr}
    (hi : b.items[i]? = some (some a)) (hj : b.items[j]? = some (some a)) :
    i = j := by
  obtain ⟨l, hl, rfl, -⟩ := h.bucket i a hi
  obtain ⟨l', hl', rfl, -⟩ := h.bucket j a hj
  rw [hl] at hl'
  cases hl'
  rfl

theorem stored_placed (h : BucketsInv seed size b) {it : HtItem}
    (hit : it ∈ stored b) :
    ∃ a l, b.items[it.hash.toNat % size]? = some (some a) ∧
      b.lists a = some l ∧ it ∈ l.head ∧
      Placed seed size (it.hash.toNat % size) it := by
  obtain ⟨a, ha, hmem⟩ := List.mem_flatMap.mp hit
  obtain ⟨l, hl, hslot, hplaced⟩ := h.bucket_of_mem ha
  rw [bucketItems_of_eq_some hl] at hmem
  have hp := hplaced it hmem
  rw [← hp.slot] at hslot hp
  exact ⟨a, l, hslot, hl, hmem, hp⟩

/-- Replacing the items of one bucket replaces them among all stored items. -/
theorem setItems_eq (h : BucketsInv seed size b) {i : ℕ} {a : Addr}
    {l : ItemsList} (hi : b.items[i]? = some (some a)) (hl : b.lists a = some l)
    {its : List HtItem} (hplaced : ∀ it ∈ its, Placed seed size i it) :
    ∃ b' rest, setItems b a its = some b' ∧ BucketsInv seed size b' ∧
      b'.items = b.items ∧ b'.iteratorList = b.iteratorList ∧
      b'.lists a = some { l with head := its } ∧
      (∀ c, c ≠ a → b'.lists c = b.lists c) ∧
      (stored b).Perm (l.head ++ rest) ∧ (stored b').Perm (its ++ rest) := by
  let b' : Buckets := { b with lists := b.lists.put a { l with head := its } }
  have hself : b'.lists a = some { l with head := its } := Heap.put_self hl
  have hother : ∀ c, c ≠ a → b'.lists c = b.lists c := fun c hc => Heap.put_of_ne hc
  have hmem : a ∈ b.iteratorList := h.mem_iteratorList_iff.mpr ⟨i, hi⟩
  obtain ⟨pre, post, hsplit⟩ := List.append_of_mem hmem
  have hnd := h.nodup
  rw [hsplit, List.nodup_append, List.nodup_cons] at hnd
  have hpre : ∀ c ∈ pre, c ≠ a := fun c hc => hnd.2.2 c hc a (by simp)
  have hpost : ∀ c ∈ post, c ≠ a := fun c hc heq => hnd.2.1.1 (heq ▸ hc)
  have hflat : ∀ cs : List Addr, (∀ c ∈ cs, c ≠ a) →
      cs.flatMap (bucketItems b') = cs.flatMap (bucketItems b) := by
    intro cs hcs
    apply List.flatMap_congr
    intro c hc
    simp [bucketItems, hother c (hcs c hc)]
  refine ⟨b', pre.flatMap (bucketItems b) ++ post.flatMap (bucketItems b), ?_, ?_,
    rfl, rfl, hself, hother, ?_, ?_⟩
  · simp [setItems, Heap.modify, hl, b']
  · refine ⟨h.sizePos, h.itemsLength, h.registered, h.nodup, ?_⟩
    intro j c hj
    by_cases hca : c = a
    · subst c
      have hij : i = j := h.slot_unique hi hj
      subst j
      obtain ⟨l', hl', hidx, -⟩ := h.bucket i a hi
      rw [hl] at hl'
      cases hl'
      exact ⟨_, hself, hidx, hplaced⟩
    · rw [hother c hca]
      exact h.bucket j c hj
  · have hitems : bucketItems b a = l.head := bucketItems_of_eq_some hl
    have heq : stored b = pre.flatMap (bucketItems b) ++
        (l.head ++ post.flatMap (bucketItems b)) := by
      rw [stored, hsplit, List.flatMap_append, List.flatMap_cons, hitems]
    rw [heq]
    exact List.perm_append_comm_assoc _ _ _
  · have hitems : bucketItems b' a = its := bucketItems_of_eq_some hself
    have heq : stored b' = pre.flatMap (bucketItems b) ++
        (its ++ post.flatMap (bucketItems b)) := by
      rw [stored, show b'.iteratorList = b.iteratorList from rfl, hsplit,
        List.flatMap_append, List.flatMap_cons, hitems, hflat pre hpre,
        hflat post hpost]
    rw [heq]
    exact List.perm_append_comm_assoc _ _ _

/-- Registering a bucket in an empty slot lists it once more in the array. -/
theorem filterMap_set_perm {items : List (Option Addr)} {i : ℕ}
    (hi : items[i]? = some none) (a : Addr) :
    ((items.set i (some a)).filterMap id).Perm (a :: items.filterMap id) := by
  obtain ⟨hlt, hget⟩ := List.getElem?_eq_some_iff.mp hi
  have hsplit : items = items.take i ++ none :: items.drop (i + 1) := by
    rw [← hget, List.getElem_cons_drop, List.take_append_drop]
  have hset : items.set i (some a) =
      items.take i ++ some a :: items.drop (i + 1) := by
    rw [List.set_eq_take_append_cons_drop, if_pos hlt]
  have hfilter : items.filterMap id =
      (items.take i).filterMap id ++ (items.drop (i + 1)).filterMap id := by
    conv_lhs => rw [hsplit]
    simp
  rw [hset, hfilter, List.filterMap_append]
  exact List.perm_middle

/-- A new bucket holds nothing and disturbs nothing. -/
theorem newList_eq (h : BucketsInv seed size b) {i : ℕ}
    (hi : b.items[i]? = some none) :
    BucketsInv seed size (newList b i).1 ∧
      (newList b i).1.items[i]? = some (some (newList b i).2) ∧
      (newList b i).1.lists (newList b i).2 = some { head := [], index := i } ∧
      (∀ c, (b.lists c).isSome → c ≠ (newList b i).2 ∧
        (newList b i).1.lists c = b.lists c) ∧
      stored (newList b i).1 = stored b := by
  have hlt : i < b.items.length := (List.getElem?_eq_some_iff.mp hi).1
  have hfresh : ∀ c, (b.lists c).isSome → c ≠ b.lists.brk := by
    intro c hc heq
    rw [heq, Heap.brk_apply] at hc
    cases hc
  have hkeep : ∀ c, (b.lists c).isSome →
      (newList b i).1.lists c = b.lists c := fun c hc => if_neg (hfresh c hc)
  have hlive : ∀ c ∈ b.iteratorList, (b.lists c).isSome := by
    intro c hc
    obtain ⟨l, hl, -⟩ := h.bucket_of_mem hc
    simp [hl]
  have hnot : b.lists.brk ∉ b.iteratorList := fun hc => hfresh _ (hlive _ hc) rfl
  have hnew : (newList b i).1.lists (newList b i).2 =
      some { head := [], index := i } := if_pos rfl
  have hslot : (newList b i).1.items[i]? = some (some (newList b i).2) :=
    List.getElem?_set_self hlt
  refine ⟨⟨h.sizePos, ?_, ?_, ?_, ?_⟩, hslot, hnew, ?_, ?_⟩
  · simp [newList, h.itemsLength]
  · have hperm := (filterMap_set_perm hi b.lists.brk).trans (h.registered.cons _)
    exact hperm.trans (List.perm_append_singleton _ _).symm
  · exact List.nodup_append.mpr ⟨h.nodup, by simp, by
      intro c hc d hd heq
      rw [List.mem_singleton.mp hd] at heq
      subst heq
      exact hnot hc⟩
  · intro j c hj
    by_cases hij : i = j
    · subst j
      rw [hslot] at hj
      cases hj
      exact ⟨_, hnew, rfl, by simp⟩
    · have hj' : b.items[j]? = some (some c) := by
        rwa [newList, List.getElem?_set_ne hij] at hj
      have hc : c ∈ b.iteratorList := h.mem_iteratorList_iff.mpr ⟨j, hj'⟩
      rw [hkeep c (hlive c hc)]
      exact h.bucket j c hj'
  · intro c hc
    exact ⟨hfresh c hc, hkeep c hc⟩
  · have hflat : b.iteratorList.flatMap (bucketItems (newList b i).1) =
        b.iteratorList.flatMap (bucketItems b) := by
      apply List.flatMap_congr
      intro c hc
      simp [bucketItems, hkeep c (hlive c hc)]
    have hend : bucketItems (newList b i).1 (newList b i).2 = [] :=
      bucketItems_of_eq_some hnew
    rw [stored, show (newList b i).1.iteratorList =
      b.iteratorList ++ [(newList b i).2] from rfl, List.flatMap_append, hflat,
      List.flatMap_singleton, hend, List.append_nil, stored]

end BucketsInv
end HashTable
end LibHL
