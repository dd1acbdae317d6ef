import Mathlib.Algebra.Order.Group.Multiset
import Mathlib.Data.Set.Insert
import Mathlib.Logic.Function.Basic

/-!
# Objects with shared reference counts

Objects carry a pointer, a count of the references to them and a flag.  Whoever gives a
reference back lowers the count, and then tries to set the flag; whoever has set it looks
at the count again, and terminates the object if it is zero or else clears the flag.  The
pointer of a terminated object is freed later, and the object may be used again.

The ledger says who holds what.  Its steps are those of any number of users, one at a time;
an object is never terminated while there is a reference to it.
-/

namespace LibHL

/-- The objects, and who has business with them. -/
@[ext]
structure Ledger (α P : Type*) where
  /-- The pointer that an object carries; other addresses have none. -/
  ptr : α → Option P
  count : α → ℕ
  flag : α → Bool
  /-- The references that are held. -/
  refs : Multiset α
  /-- The objects whose flag somebody has set and will clear. -/
  owned : Multiset α
  /-- The objects whose count the owner of the flag has read to be zero. -/
  doomed : Multiset α
  /-- The terminated objects that wait for their pointers to be freed. -/
  full : Multiset α
  /-- The objects that wait to be used again. -/
  empty : Multiset α
  used : Set P
  terminated : List P
  freed : List P

namespace Ledger

variable {α P : Type*} [DecidableEq α] {L L' : Ledger α P} {a b : α} {p q : P}

/-- A step of some user. -/
inductive Step : Ledger α P → Ledger α P → Prop where
  | make (L : Ledger α P) (a : α) (p : P) (ha : L.ptr a = none) (hp : p ∉ L.used) :
      Step L { L with
        ptr := Function.update L.ptr a (some p)
        count := Function.update L.count a 1
        flag := Function.update L.flag a false
        refs := {a} + L.refs
        used := insert p L.used }
  | reuse (L : Ledger α P) (a : α) (p : P) (E : Multiset α) (ha : L.empty = {a} + E)
      (hp : p ∉ L.used) :
      Step L { L with
        ptr := Function.update L.ptr a (some p)
        count := Function.update L.count a 1
        flag := Function.update L.flag a false
        refs := {a} + L.refs
        empty := E
        used := insert p L.used }
  | raise (L : Ledger α P) (a : α) (ha : a ∈ L.refs) :
      Step L { L with
        count := Function.update L.count a (L.count a + 1)
        refs := {a} + L.refs }
  | lower (L : Ledger α P) (a : α) (R : Multiset α) (ha : L.refs = {a} + R) :
      Step L { L with
        count := Function.update L.count a (L.count a - 1)
        refs := R }
  | set (L : Ledger α P) (a : α) (ha : (L.ptr a).isSome) (hflag : L.flag a = false) :
      Step L { L with
        flag := Function.update L.flag a true
        owned := {a} + L.owned }
  | clear (L : Ledger α P) (a : α) (O : Multiset α) (ha : L.owned = {a} + O) :
      Step L { L with
        flag := Function.update L.flag a false
        owned := O }
  | doom (L : Ledger α P) (a : α) (O : Multiset α) (ha : L.owned = {a} + O)
      (hzero : L.count a = 0) :
      Step L { L with
        owned := O
        doomed := {a} + L.doomed }
  | terminate (L : Ledger α P) (a : α) (p : P) (D K : Multiset α) (ha : L.doomed = {a} + D)
      (hp : L.ptr a = some p) (hK : K ≤ {a}) :
      Step L { L with
        doomed := D
        full := K + L.full
        terminated := L.terminated ++ [p] }
  | free (L : Ledger α P) (a : α) (p : P) (F : Multiset α) (ha : L.full = {a} + F)
      (hp : L.ptr a = some p) :
      Step L { L with
        full := F
        empty := {a} + L.empty
        freed := L.freed ++ [p] }
  | discard (L : Ledger α P) (a : α) (E : Multiset α) (ha : L.empty = {a} + E) :
      Step L { L with
        ptr := Function.update L.ptr a none
        count := Function.update L.count a 0
        flag := Function.update L.flag a false
        empty := E }

/-- The counts are those of the references, and nobody has business with an object that has
been terminated. -/
structure Sound (L : Ledger α P) : Prop where
  counted : ∀ a, L.count a = L.refs.count a
  present : ∀ a ∈ L.refs, (L.ptr a).isSome
  alone : (L.owned + L.doomed).Nodup
  flagged : ∀ a ∈ L.owned + L.doomed, L.flag a = true ∧ ∃ p, L.ptr a = some p ∧ p ∉ L.terminated
  unheld : ∀ a ∈ L.doomed, a ∉ L.refs
  dead : ∀ a p, L.ptr a = some p → p ∈ L.terminated → L.flag a = true ∧ a ∉ L.refs
  distinct : ∀ a b p, L.ptr a = some p → L.ptr b = some p → a = b
  apart : (L.full + L.empty).Nodup
  waiting : ∀ a ∈ L.full + L.empty, ∃ p, L.ptr a = some p ∧ p ∈ L.terminated
  unfreed : ∀ a ∈ L.full, ∀ p, L.ptr a = some p → p ∉ L.freed
  issued : ∀ a p, L.ptr a = some p → p ∈ L.used
  terminatedUsed : ∀ p ∈ L.terminated, p ∈ L.used
  terminatedOnce : L.terminated.Nodup
  freedOnce : L.freed.Nodup
  freedTerminated : ∀ p ∈ L.freed, p ∈ L.terminated

omit [DecidableEq α] in
theorem mem_add_self (a : α) (R : Multiset α) : a ∈ {a} + R :=
  Multiset.mem_add.mpr (Or.inl (Multiset.mem_singleton_self a))

/-- Before anything has been made. -/
theorem sound_of_none (hptr : ∀ a, L.ptr a = none) (hcount : ∀ a, L.count a = 0)
    (hrefs : L.refs = 0) (howned : L.owned = 0) (hdoomed : L.doomed = 0) (hfull : L.full = 0)
    (hempty : L.empty = 0) (hterm : L.terminated = []) (hfreed : L.freed = []) : Sound L where
  counted := by simp [hcount, hrefs]
  present := by simp [hrefs]
  alone := by simp [howned, hdoomed]
  flagged := by simp [howned, hdoomed]
  unheld := by simp [hdoomed]
  dead := by simp [hptr]
  distinct := by simp [hptr]
  apart := by simp [hfull, hempty]
  waiting := by simp [hfull, hempty]
  unfreed := by simp [hfull]
  issued := by simp [hptr]
  terminatedUsed := by simp [hterm]
  terminatedOnce := by simp [hterm]
  freedOnce := by simp [hfreed]
  freedTerminated := by simp [hfreed]

theorem Sound.idle (h : Sound L) (ha : a ∈ L.full + L.empty) :
    a ∉ L.refs ∧ a ∉ L.owned + L.doomed ∧ L.flag a = true := by
  obtain ⟨p, hp, hterm⟩ := h.waiting a ha
  obtain ⟨hflag, hrefs⟩ := h.dead a p hp hterm
  refine ⟨hrefs, fun hbusy => ?_, hflag⟩
  obtain ⟨-, q, hq, hnot⟩ := h.flagged a hbusy
  cases hp.symm.trans hq
  exact hnot hterm

/-! ## References -/

theorem Sound.raise (h : Sound L) (ha : a ∈ L.refs) :
    Sound { L with
      count := Function.update L.count a (L.count a + 1)
      refs := {a} + L.refs } := by
  have hmem : ∀ b, b ∈ {a} + L.refs → b ∈ L.refs := by
    intro b hb
    rcases Multiset.mem_add.mp hb with hb | hb
    · rwa [Multiset.mem_singleton.mp hb]
    · exact hb
  refine { h with
    counted := fun b => ?_
    present := fun b hb => h.present b (hmem b hb)
    unheld := fun b hb hrefs => h.unheld b hb (hmem b hrefs)
    dead := fun b p hp hterm => ?_ }
  · by_cases hb : b = a
    · subst hb
      simp [h.counted b]
    · simp [h.counted b, hb]
  · obtain ⟨hflag, hrefs⟩ := h.dead b p hp hterm
    exact ⟨hflag, fun hb => hrefs (hmem b hb)⟩

theorem Sound.lower (h : Sound L) {R : Multiset α} (ha : L.refs = {a} + R) :
    Sound { L with
      count := Function.update L.count a (L.count a - 1)
      refs := R } := by
  have hmem : ∀ b, b ∈ R → b ∈ L.refs := fun b hb => by
    rw [ha]
    exact Multiset.mem_add.mpr (Or.inr hb)
  refine { h with
    counted := fun b => ?_
    present := fun b hb => h.present b (hmem b hb)
    unheld := fun b hb hrefs => h.unheld b hb (hmem b hrefs)
    dead := fun b p hp hterm => ?_ }
  · have hcount := h.counted b
    rw [ha, Multiset.count_add] at hcount
    by_cases hb : b = a
    · subst hb
      simp [hcount]
    · simpa [Function.update_of_ne hb, hb] using hcount
  · obtain ⟨hflag, hrefs⟩ := h.dead b p hp hterm
    exact ⟨hflag, fun hb => hrefs (hmem b hb)⟩

/-! ## The flag -/

theorem Sound.set (h : Sound L) (ha : (L.ptr a).isSome) (hflag : L.flag a = false) :
    Sound { L with
      flag := Function.update L.flag a true
      owned := {a} + L.owned } := by
  have hfree : a ∉ L.owned + L.doomed := fun hbusy => by
    rw [(h.flagged a hbusy).1] at hflag
    cases hflag
  obtain ⟨p, hp⟩ := Option.isSome_iff_exists.mp ha
  have hlive : p ∉ L.terminated := fun hterm => by
    rw [(h.dead a p hp hterm).1] at hflag
    cases hflag
  refine { h with
    alone := ?_
    flagged := fun b hb => ?_
    dead := fun b q hq hterm => ?_ }
  · rw [add_assoc, Multiset.singleton_add]
    exact Multiset.nodup_cons.mpr ⟨hfree, h.alone⟩
  · rw [add_assoc] at hb
    rcases Multiset.mem_add.mp hb with hb | hb
    · rw [Multiset.mem_singleton.mp hb]
      exact ⟨Function.update_self .., p, hp, hlive⟩
    · have hne : b ≠ a := fun heq => hfree (heq ▸ hb)
      obtain ⟨hflag', hlive'⟩ := h.flagged b hb
      exact ⟨(Function.update_of_ne hne ..).trans hflag', hlive'⟩
  · have hne : b ≠ a := by
      rintro rfl
      cases hp.symm.trans hq
      exact hlive hterm
    exact ⟨(Function.update_of_ne hne ..).trans (h.dead b q hq hterm).1, (h.dead b q hq hterm).2⟩

theorem Sound.clear (h : Sound L) {O : Multiset α} (ha : L.owned = {a} + O) :
    Sound { L with
      flag := Function.update L.flag a false
      owned := O } := by
  have halone := h.alone
  rw [ha, add_assoc, Multiset.singleton_add, Multiset.nodup_cons] at halone
  have hmem : ∀ b ∈ O + L.doomed, b ∈ L.owned + L.doomed := fun b hb => by
    rw [ha, add_assoc]
    exact Multiset.mem_add.mpr (Or.inr hb)
  obtain ⟨-, p, hp, hlive⟩ := h.flagged a (by rw [ha, add_assoc]; exact mem_add_self a _)
  refine { h with
    alone := halone.2
    flagged := fun b hb => ?_
    dead := fun b q hq hterm => ?_ }
  · have hne : b ≠ a := fun heq => halone.1 (heq ▸ hb)
    obtain ⟨hflag, hlive'⟩ := h.flagged b (hmem b hb)
    exact ⟨(Function.update_of_ne hne ..).trans hflag, hlive'⟩
  · have hne : b ≠ a := by
      rintro rfl
      cases hp.symm.trans hq
      exact hlive hterm
    exact ⟨(Function.update_of_ne hne ..).trans (h.dead b q hq hterm).1, (h.dead b q hq hterm).2⟩

theorem Sound.doom (h : Sound L) {O : Multiset α} (ha : L.owned = {a} + O)
    (hzero : L.count a = 0) :
    Sound { L with
      owned := O
      doomed := {a} + L.doomed } := by
  have heq : O + ({a} + L.doomed) = L.owned + L.doomed := by
    rw [ha, add_left_comm, add_assoc]
  refine { h with
    alone := heq ▸ h.alone
    flagged := fun b hb => h.flagged b (heq ▸ hb)
    unheld := fun b hb => ?_ }
  rcases Multiset.mem_add.mp hb with hb | hb
  · rw [Multiset.mem_singleton.mp hb, ← Multiset.count_eq_zero, ← h.counted a]
    exact hzero
  · exact h.unheld b hb

/-! ## The end of an object -/

theorem Sound.terminate (h : Sound L) {D K : Multiset α} (ha : L.doomed = {a} + D)
    (hp : L.ptr a = some p) (hK : K ≤ {a}) :
    Sound { L with
      doomed := D
      full := K + L.full
      terminated := L.terminated ++ [p] } := by
  have hbusy : a ∈ L.owned + L.doomed := by
    rw [ha]
    exact Multiset.mem_add.mpr (Or.inr (mem_add_self a D))
  obtain ⟨hflag, q, hq, hlive⟩ := h.flagged a hbusy
  cases hp.symm.trans hq
  have halone := h.alone
  rw [ha, add_left_comm, Multiset.singleton_add, Multiset.nodup_cons] at halone
  have hrest : ∀ b ∈ L.owned + D, b ∈ L.owned + L.doomed ∧ b ≠ a := by
    intro b hb
    refine ⟨?_, fun heq => halone.1 (heq ▸ hb)⟩
    rw [ha, add_left_comm]
    exact Multiset.mem_add.mpr (Or.inr hb)
  have hK' : ∀ b ∈ K, b = a := fun b hb =>
    Multiset.mem_singleton.mp (Multiset.mem_of_le hK hb)
  have hnew : a ∉ L.full + L.empty := fun hwait => (h.idle hwait).2.1 hbusy
  refine { h with
    alone := halone.2
    flagged := fun b hb => ?_
    unheld := fun b hb => h.unheld b ?_
    dead := fun b q hq hterm => ?_
    apart := ?_
    waiting := fun b hb => ?_
    unfreed := fun b hb q hq => ?_
    terminatedUsed := fun q hterm => ?_
    terminatedOnce := ?_
    freedTerminated := fun q hq => ?_ }
  · obtain ⟨hmem, hne⟩ := hrest b hb
    obtain ⟨hflag', q, hq, hnot⟩ := h.flagged b hmem
    refine ⟨hflag', q, hq, fun hterm => ?_⟩
    rcases List.mem_append.mp hterm with hterm | hterm
    · exact hnot hterm
    · rw [List.mem_singleton.mp hterm] at hq
      exact hne (h.distinct b a p hq hp)
  · rw [ha]
    exact Multiset.mem_add.mpr (Or.inr hb)
  · rcases List.mem_append.mp hterm with hterm | hterm
    · exact h.dead b q hq hterm
    · rw [List.mem_singleton.mp hterm] at hq
      rw [h.distinct b a p hq hp]
      exact ⟨hflag, h.unheld a (ha ▸ mem_add_self a D)⟩
  · rw [add_assoc]
    refine Multiset.nodup_add.mpr ⟨?_, h.apart, ?_⟩
    · exact Multiset.nodup_of_le hK (Multiset.nodup_singleton a)
    · refine Multiset.disjoint_left.mpr fun hb hwait => ?_
      rw [hK' _ hb] at hwait
      exact hnew hwait
  · rw [add_assoc] at hb
    rcases Multiset.mem_add.mp hb with hb | hb
    · rw [hK' b hb]
      exact ⟨p, hp, List.mem_append_right _ (List.mem_singleton_self p)⟩
    · obtain ⟨q, hq, hterm⟩ := h.waiting b hb
      exact ⟨q, hq, List.mem_append_left _ hterm⟩
  · rcases Multiset.mem_add.mp hb with hb | hb
    · rw [hK' b hb] at hq
      cases hp.symm.trans hq
      exact fun hfreed => hlive (h.freedTerminated p hfreed)
    · exact h.unfreed b hb q hq
  · rcases List.mem_append.mp hterm with hterm | hterm
    · exact h.terminatedUsed q hterm
    · rw [List.mem_singleton.mp hterm]
      exact h.issued a p hp
  · refine List.nodup_append.mpr ⟨h.terminatedOnce, List.nodup_singleton p, ?_⟩
    intro q hterm q' hq' heq
    rw [heq, List.mem_singleton.mp hq'] at hterm
    exact hlive hterm
  · exact List.mem_append_left _ (h.freedTerminated q hq)

theorem Sound.free (h : Sound L) {F : Multiset α} (ha : L.full = {a} + F)
    (hp : L.ptr a = some p) :
    Sound { L with
      full := F
      empty := {a} + L.empty
      freed := L.freed ++ [p] } := by
  have heq : F + ({a} + L.empty) = L.full + L.empty := by
    rw [ha, add_left_comm, add_assoc]
  have hfull : a ∈ L.full := ha ▸ mem_add_self a F
  have hnot := h.unfreed a hfull p hp
  have hnodup := h.apart
  rw [ha, add_assoc, Multiset.singleton_add, Multiset.nodup_cons] at hnodup
  refine { h with
    apart := heq ▸ h.apart
    waiting := fun b hb => h.waiting b (heq ▸ hb)
    unfreed := fun b hb q hq hfreed => ?_
    freedOnce := ?_
    freedTerminated := fun q hq => ?_ }
  · rcases List.mem_append.mp hfreed with hfreed | hfreed
    · exact h.unfreed b (ha ▸ Multiset.mem_add.mpr (Or.inr hb)) q hq hfreed
    · rw [List.mem_singleton.mp hfreed] at hq
      rw [h.distinct b a p hq hp] at hb
      exact hnodup.1 (Multiset.mem_add.mpr (Or.inl hb))
  · refine List.nodup_append.mpr ⟨h.freedOnce, List.nodup_singleton p, ?_⟩
    intro q hq q' hq' heq
    rw [heq, List.mem_singleton.mp hq'] at hq
    exact hnot hq
  · rcases List.mem_append.mp hq with hq | hq
    · exact h.freedTerminated q hq
    · rw [List.mem_singleton.mp hq]
      obtain ⟨q', hq', hterm⟩ := h.waiting a (Multiset.mem_add.mpr (Or.inl hfull))
      cases hp.symm.trans hq'
      exact hterm

theorem Sound.discard (h : Sound L) {E : Multiset α} (ha : L.empty = {a} + E) :
    Sound { L with
      ptr := Function.update L.ptr a none
      count := Function.update L.count a 0
      flag := Function.update L.flag a false
      empty := E } := by
  have hwait : a ∈ L.full + L.empty := by
    rw [ha]
    exact Multiset.mem_add.mpr (Or.inr (mem_add_self a E))
  obtain ⟨hrefs, hbusy, -⟩ := h.idle hwait
  have hapart := h.apart
  rw [ha, add_left_comm, Multiset.singleton_add, Multiset.nodup_cons] at hapart
  have hrest : ∀ b ∈ L.full + E, b ∈ L.full + L.empty := fun b hb => by
    rw [ha, add_left_comm]
    exact Multiset.mem_add.mpr (Or.inr hb)
  have hptr : ∀ b p, Function.update L.ptr a none b = some p → b ≠ a ∧ L.ptr b = some p := by
    intro b p hb
    have hne : b ≠ a := by
      rintro rfl
      rw [Function.update_self] at hb
      cases hb
    rw [Function.update_of_ne hne] at hb
    exact ⟨hne, hb⟩
  refine { h with
    counted := fun b => ?_
    present := fun b hb => ?_
    flagged := fun b hb => ?_
    dead := fun b p hp hterm => ?_
    distinct := fun b b' p hb hb' => h.distinct b b' p (hptr b p hb).2 (hptr b' p hb').2
    apart := hapart.2
    waiting := fun b hb => ?_
    unfreed := fun b hb p hp => h.unfreed b hb p (hptr b p hp).2
    issued := fun b p hp => h.issued b p (hptr b p hp).2 }
  · by_cases hb : b = a
    · subst hb
      simp [hrefs]
    · simp [hb, h.counted b]
  · have hne : b ≠ a := fun heq => hrefs (heq ▸ hb)
    exact (congrArg Option.isSome (Function.update_of_ne hne ..)).trans (h.present b hb)
  · have hne : b ≠ a := fun heq => hbusy (heq ▸ hb)
    obtain ⟨hflag, p, hp, hlive⟩ := h.flagged b hb
    exact ⟨(Function.update_of_ne hne ..).trans hflag, p, (Function.update_of_ne hne ..).trans hp,
      hlive⟩
  · obtain ⟨hne, hp⟩ := hptr b p hp
    exact ⟨(Function.update_of_ne hne ..).trans (h.dead b p hp hterm).1, (h.dead b p hp hterm).2⟩
  · have hne : b ≠ a := fun heq => hapart.1 (heq ▸ hb)
    obtain ⟨p, hp, hterm⟩ := h.waiting b (hrest b hb)
    exact ⟨p, (Function.update_of_ne hne ..).trans hp, hterm⟩

/-! ## A new object -/

theorem Sound.born (h : Sound L) {E : Multiset α} (hE : E ≤ L.empty) (hrefs : a ∉ L.refs)
    (hbusy : a ∉ L.owned + L.doomed) (hwait : a ∉ L.full + E) (hp : p ∉ L.used) :
    Sound { L with
      ptr := Function.update L.ptr a (some p)
      count := Function.update L.count a 1
      flag := Function.update L.flag a false
      refs := {a} + L.refs
      empty := E
      used := insert p L.used } := by
  have hlive : p ∉ L.terminated := fun hterm => hp (h.terminatedUsed p hterm)
  have hle : L.full + E ≤ L.full + L.empty := Multiset.add_le_add_iff_left.mpr hE
  have hptr : ∀ b q, Function.update L.ptr a (some p) b = some q →
      b = a ∧ q = p ∨ b ≠ a ∧ L.ptr b = some q := by
    intro b q hb
    by_cases heq : b = a
    · subst heq
      rw [Function.update_self] at hb
      exact Or.inl ⟨rfl, (Option.some.inj hb).symm⟩
    · rw [Function.update_of_ne heq] at hb
      exact Or.inr ⟨heq, hb⟩
  refine { h with
    counted := fun b => ?_
    present := fun b hb => ?_
    flagged := fun b hb => ?_
    unheld := fun b hb hmem => ?_
    dead := fun b q hq hterm => ?_
    distinct := fun b b' q hb hb' => ?_
    apart := Multiset.nodup_of_le hle h.apart
    waiting := fun b hb => ?_
    unfreed := fun b hb q hq => ?_
    issued := fun b q hq => ?_
    terminatedUsed := fun q hq => Set.mem_insert_of_mem p (h.terminatedUsed q hq) }
  · by_cases hb : b = a
    · subst hb
      simp [hrefs]
    · simp [hb, h.counted b]
  · by_cases heq : b = a
    · simp [heq]
    · have hb' := (Multiset.mem_add.mp hb).resolve_left fun hs =>
        heq (Multiset.mem_singleton.mp hs)
      exact (congrArg Option.isSome (Function.update_of_ne heq ..)).trans (h.present b hb')
  · have hne : b ≠ a := fun heq => hbusy (heq ▸ hb)
    obtain ⟨hflag, q, hq, hnot⟩ := h.flagged b hb
    exact ⟨(Function.update_of_ne hne ..).trans hflag, q, (Function.update_of_ne hne ..).trans hq,
      hnot⟩
  · have hne : b ≠ a := fun heq =>
      hbusy (heq ▸ Multiset.mem_add.mpr (Or.inr hb))
    exact h.unheld b hb ((Multiset.mem_add.mp hmem).resolve_left fun hs =>
      hne (Multiset.mem_singleton.mp hs))
  · rcases hptr b q hq with ⟨-, rfl⟩ | ⟨hne, hq⟩
    · exact absurd hterm hlive
    · obtain ⟨hflag, hnot⟩ := h.dead b q hq hterm
      refine ⟨(Function.update_of_ne hne ..).trans hflag, fun hmem => hnot ?_⟩
      exact (Multiset.mem_add.mp hmem).resolve_left fun hs => hne (Multiset.mem_singleton.mp hs)
  · rcases hptr b q hb with ⟨rfl, rfl⟩ | ⟨-, hq⟩
    · rcases hptr b' q hb' with ⟨rfl, -⟩ | ⟨-, hq'⟩
      · rfl
      · exact absurd (h.issued b' q hq') hp
    · rcases hptr b' q hb' with ⟨rfl, rfl⟩ | ⟨-, hq'⟩
      · exact absurd (h.issued b q hq) hp
      · exact h.distinct b b' q hq hq'
  · have hne : b ≠ a := fun heq => hwait (heq ▸ hb)
    obtain ⟨q, hq, hterm⟩ := h.waiting b (Multiset.mem_of_le hle hb)
    exact ⟨q, (Function.update_of_ne hne ..).trans hq, hterm⟩
  · rcases hptr b q hq with ⟨rfl, -⟩ | ⟨-, hq⟩
    · exact absurd (Multiset.mem_add.mpr (Or.inl hb)) hwait
    · exact h.unfreed b hb q hq
  · rcases hptr b q hq with ⟨-, rfl⟩ | ⟨-, hq⟩
    · exact Set.mem_insert q L.used
    · exact Set.mem_insert_of_mem p (h.issued b q hq)

/-! ## All steps -/

theorem Sound.step (h : Sound L) (hstep : Step L L') : Sound L' := by
  cases hstep with
  | make a p ha hp =>
      have hgone : ∀ {q : P}, L.ptr a ≠ some q := fun hq => by
        rw [ha] at hq
        cases hq
      refine h.born (le_refl L.empty) (fun hb => ?_) (fun hb => ?_) (fun hb => ?_) hp
      · obtain ⟨q, hq⟩ := Option.isSome_iff_exists.mp (h.present a hb)
        exact hgone hq
      · obtain ⟨-, q, hq, -⟩ := h.flagged a hb
        exact hgone hq
      · obtain ⟨q, hq, -⟩ := h.waiting a hb
        exact hgone hq
  | reuse a p E ha hp =>
      have hapart := h.apart
      rw [ha, add_left_comm, Multiset.singleton_add, Multiset.nodup_cons] at hapart
      have hwait : a ∈ L.full + L.empty := by
        rw [ha]
        exact Multiset.mem_add.mpr (Or.inr (mem_add_self a E))
      obtain ⟨hrefs, hbusy, -⟩ := h.idle hwait
      exact h.born (ha ▸ Multiset.le_add_left E {a}) hrefs hbusy hapart.1 hp
  | raise a ha => exact h.raise ha
  | lower a R ha => exact h.lower ha
  | set a ha hflag => exact h.set ha hflag
  | clear a O ha => exact h.clear ha
  | doom a O ha hzero => exact h.doom ha hzero
  | terminate a p D K ha hp hK => exact h.terminate ha hp hK
  | free a p F ha hp => exact h.free ha hp
  | discard a E ha => exact h.discard ha

/-- An object with a reference has not been terminated, and its pointer not been freed. -/
theorem Sound.safe (h : Sound L) (ha : a ∈ L.refs) :
    ∃ p, L.ptr a = some p ∧ 0 < L.count a ∧ p ∉ L.terminated ∧ p ∉ L.freed ∧
      a ∉ L.full + L.empty := by
  obtain ⟨p, hp⟩ := Option.isSome_iff_exists.mp (h.present a ha)
  have hlive : p ∉ L.terminated := fun hterm => (h.dead a p hp hterm).2 ha
  refine ⟨p, hp, ?_, hlive, fun hfreed => hlive (h.freedTerminated p hfreed), fun hwait => ?_⟩
  · rw [h.counted a]
    exact Multiset.count_pos.mpr ha
  · exact (h.idle hwait).1 ha

theorem Step.ptr_eq (hstep : Step L L') (h : Sound L) (ha : a ∈ L.full) : L'.ptr a = L.ptr a := by
  have hwait : a ∈ L.full + L.empty := Multiset.mem_add.mpr (Or.inl ha)
  have hne : ∀ {b : α} {E : Multiset α}, L.empty = {b} + E → a ≠ b := by
    rintro b E hb rfl
    have hapart := h.apart
    rw [hb, add_left_comm, Multiset.singleton_add, Multiset.nodup_cons] at hapart
    exact hapart.1 (Multiset.mem_add.mpr (Or.inl ha))
  cases hstep with
  | make b p hb hp =>
      have hne : a ≠ b := by
        rintro rfl
        obtain ⟨q, hq, -⟩ := h.waiting a hwait
        rw [hb] at hq
        cases hq
      exact Function.update_of_ne hne ..
  | reuse b p E hb hp => exact Function.update_of_ne (hne hb) ..
  | discard b E hb => exact Function.update_of_ne (hne hb) ..
  | _ => rfl

end Ledger
end LibHL
