import Mathlib.Data.Finmap

/-!
# Finite maps through their entries

The containers of the library are compared with finite maps.  A container holds
its pairs in some order, so what it needs to know about a map is how each map
operation acts on the multiset of entries.
-/

namespace LibHL

/-- Finite maps from keys to values of one type. -/
abbrev FiniteMap (κ β : Type*) := Finmap fun _ : κ => β

namespace FiniteMap

variable {κ β : Type*} [DecidableEq κ] {m : FiniteMap κ β} {k : κ} {v : β}

theorem entries_insert (m : FiniteMap κ β) (k : κ) (v : β) :
    (m.insert k v).entries = ⟨k, v⟩ ::ₘ (m.erase k).entries := by
  induction m using Finmap.induction_on with
  | H a =>
      rw [Finmap.insert_toFinmap, Finmap.erase_toFinmap]
      exact congrArg _ AList.entries_insert

theorem erase_of_lookup_none (h : m.lookup k = none) : m.erase k = m := by
  apply Finmap.ext_lookup
  intro x
  by_cases hx : x = k
  · subst x
    rw [Finmap.lookup_erase, h]
  · exact Finmap.lookup_erase_ne hx

theorem insert_of_lookup (h : m.lookup k = some v) : m.insert k v = m := by
  apply Finmap.ext_lookup
  intro x
  by_cases hx : x = k
  · subst x
    rw [Finmap.lookup_insert, h]
  · exact Finmap.lookup_insert_of_ne m hx

theorem entries_of_lookup (h : m.lookup k = some v) :
    m.entries = ⟨k, v⟩ ::ₘ (m.erase k).entries := by
  rw [← entries_insert, insert_of_lookup h]

theorem fst_ne_of_mem_erase {e : (_ : κ) × β} (he : e ∈ (m.erase k).entries) :
    e.1 ≠ k := by
  rintro rfl
  have hmem : e.1 ∈ m.erase e.1 := Multiset.mem_map_of_mem _ he
  exact Finmap.notMem_erase_self hmem

theorem lookup_of_mem {e : (_ : κ) × β} (he : e ∈ m.entries) :
    m.lookup e.1 = some e.2 :=
  Finmap.lookup_eq_some_iff.mpr he

theorem fst_ne_of_lookup_none (h : m.lookup k = none) {e : (_ : κ) × β}
    (he : e ∈ m.entries) : e.1 ≠ k := by
  rintro rfl
  rw [lookup_of_mem he] at h
  cases h

theorem entries_erase {e : (_ : κ) × β} {s : Multiset ((_ : κ) × β)}
    (h : m.entries = e ::ₘ s) : (m.erase e.1).entries = s := by
  have he : e ∈ m.entries := by
    rw [h]
    exact Multiset.mem_cons_self e s
  have hsplit := entries_of_lookup (lookup_of_mem he)
  rw [h] at hsplit
  exact ((Multiset.cons_inj_right e).mp hsplit).symm

omit [DecidableEq κ] in
theorem card_keys (m : FiniteMap κ β) : m.keys.card = m.entries.card :=
  Multiset.card_map _ _

end FiniteMap
end LibHL
