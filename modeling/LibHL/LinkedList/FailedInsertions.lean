import LibHL.LinkedList.Operations
import LibHL.LinkedList.ScarceModel

/-!
# Insertions that fail

An insertion past the end links an empty entry for each missing position first.  If one of
them is refused, those before it stay in the list, although the insertion reports -1.
-/

namespace LibHL
namespace LinkedList
namespace Scarce

open Allocating

variable {V : Type} {l l' : LinkedList V} {ps : List Addr} {xs : List (Option V)} {a : Addr}
  {v : Option V} {pos i k fuel : ℕ} {g g' : Grants} {r : ℤ} {ok : Bool}

/-! ## Padding -/

theorem createEntry_granted (l : LinkedList V) (hg : g 0 = true) :
    createEntry l g = some ((l.createEntry.1, some l.createEntry.2), fun n => g (n + 1)) := by
  unfold createEntry
  rw [bind_of_eq_some (request_eq_some.mpr ⟨hg, rfl⟩)]
  rfl

theorem createEntry_refused (l : LinkedList V) (hg : g 0 = false) :
    createEntry l g = some ((l, none), fun n => g (n + 1)) := by
  unfold createEntry
  rw [bind_of_eq_some (request_eq_some.mpr ⟨hg, rfl⟩)]
  rfl

theorem pushEntry_rc (h : l.pushEntry (some a) = some (l', r)) : r = 0 := by
  by_cases hlen : l.length = 0
  · simp only [pushEntry, hlen, ↓reduceIte, Option.bind_eq_bind, Option.bind_some,
      Option.bind_eq_some_iff] at h
    obtain ⟨_, -, heq⟩ := h
    cases heq
    rfl
  · simp only [pushEntry, hlen, ↓reduceIte, Option.bind_eq_bind, Option.bind_some,
      Option.bind_eq_some_iff] at h
    obtain ⟨_, -, _, -, _, -, _, -, heq⟩ := h
    cases heq
    rfl

/-- The padding loop goes through `k` rounds, which lead from `l` to `l'`. -/
structure Pads (pos i : ℕ) (g : Grants) (k : ℕ) (l l' : LinkedList V) : Prop where
  rounds : ∀ j < k, cUInt (i + j) < pos ∧ g j = true
  padded : padEntries k l = some l'

theorem pads_zero : Pads pos i g 0 l l' ↔ l = l' :=
  ⟨fun h => Option.some.inj h.padded,
    fun h => ⟨fun _ hj => absurd hj (Nat.not_lt_zero _), congrArg some h⟩⟩

theorem cUInt_succ_add (i j : ℕ) : cUInt (cUInt (i + 1) + j) = cUInt (i + (j + 1)) := by
  rw [cUInt, cUInt, cUInt, Nat.mod_add_mod, Nat.add_assoc, Nat.add_comm 1]

/-- The first round. -/
theorem pads_succ (hi : i < 2 ^ 32) : Pads pos i g (k + 1) l l' ↔
    i < pos ∧ g 0 = true ∧ ∃ p, l.createEntry.1.pushEntry (some l.createEntry.2) = some p ∧
      Pads pos (cUInt (i + 1)) (fun n => g (n + 1)) k p.1 l' := by
  constructor
  · rintro ⟨hrounds, hpad⟩
    have hfirst := hrounds 0 (Nat.succ_pos k)
    rw [Nat.add_zero, cUInt_eq hi] at hfirst
    obtain ⟨p, hp, hpad⟩ := Option.bind_eq_some_iff.mp hpad
    refine ⟨hfirst.1, hfirst.2, p, hp, fun j hj => ?_, hpad⟩
    rw [cUInt_succ_add]
    exact hrounds (j + 1) (Nat.succ_lt_succ hj)
  · rintro ⟨hlt, hg, p, hp, hrounds, hpad⟩
    refine ⟨?_, Option.bind_eq_some_iff.mpr ⟨p, hp, hpad⟩⟩
    rintro (_ | j) hj
    · rw [Nat.add_zero, cUInt_eq hi]
      exact ⟨hlt, hg⟩
    · rw [← cUInt_succ_add]
      exact hrounds j (Nat.lt_of_succ_lt_succ hj)

theorem padLoop_succ (hlt : i < pos) (hg : g 0 = true) :
    padLoop pos (fuel + 1) i l g =
      (l.createEntry.1.pushEntry (some l.createEntry.2)).bind fun p =>
        padLoop pos fuel (cUInt (i + 1)) p.1 fun n => g (n + 1) := by
  rw [padLoop, if_pos hlt, bind_of_eq_some (createEntry_granted l hg)]
  dsimp only
  cases hpush : l.createEntry.1.pushEntry (some l.createEntry.2) with
  | none => rfl
  | some p =>
      obtain ⟨l₁, ret⟩ := p
      have hret : ret = 0 := pushEntry_rc hpush
      have hlift : (liftM (some (l₁, ret)) : Allocating (LinkedList V × ℤ)) (fun n => g (n + 1)) =
          some ((l₁, ret), fun n => g (n + 1)) := rfl
      rw [bind_of_eq_some hlift]
      dsimp only
      rw [if_neg (not_not.mpr hret)]
      rfl

/-- The loop is over when its counter is at the position, or when an entry is refused. -/
theorem padLoop_eq_some_iff : ∀ (fuel i : ℕ) (l : LinkedList V) (g : Grants), i < 2 ^ 32 →
    ((∃ g', padLoop pos fuel i l g = some ((l', ok), g')) ↔ ∃ k < fuel, Pads pos i g k l l' ∧
      if ok = true then pos ≤ cUInt (i + k) else cUInt (i + k) < pos ∧ g k = false) := by
  intro fuel
  induction fuel with
  | zero =>
      intro i l g _
      refine iff_of_false ?_ ?_
      · rintro ⟨g', h⟩
        cases h
      · rintro ⟨k, hk, -⟩
        exact absurd hk (Nat.not_lt_zero k)
  | succ fuel ih =>
      intro i l g hi
      by_cases hlt : i < pos
      · cases hg : g 0 with
        | false =>
            have hrun : padLoop pos (fuel + 1) i l g = some ((l, false), fun n => g (n + 1)) := by
              rw [padLoop, if_pos hlt, bind_of_eq_some (createEntry_refused l hg)]
              rfl
            rw [hrun]
            constructor
            · rintro ⟨g', heq⟩
              cases heq
              exact ⟨0, Nat.succ_pos fuel, pads_zero.mpr rfl,
                by simpa [cUInt_eq hi] using ⟨hlt, hg⟩⟩
            · rintro ⟨_ | k, -, hpads, hend⟩
              · cases ok with
                | true => exact absurd hlt (by simpa [cUInt_eq hi] using hend)
                | false => exact ⟨_, by rw [pads_zero.mp hpads]⟩
              · rw [pads_succ hi, hg] at hpads
                exact absurd hpads.2.1 Bool.false_ne_true
        | true =>
            have hnext : cUInt (i + 1) < 2 ^ 32 := Nat.mod_lt _ (Nat.two_pow_pos 32)
            rw [padLoop_succ hlt hg]
            constructor
            · rintro ⟨g', h⟩
              obtain ⟨p, hpush, hrun⟩ := Option.bind_eq_some_iff.mp h
              obtain ⟨k, hk, hpads, hend⟩ := (ih _ _ _ hnext).mp ⟨g', hrun⟩
              rw [cUInt_succ_add] at hend
              exact ⟨k + 1, Nat.succ_lt_succ hk,
                (pads_succ hi).mpr ⟨hlt, hg, p, hpush, hpads⟩, hend⟩
            · rintro ⟨_ | k, hk, hpads, hend⟩
              · rw [Nat.add_zero, cUInt_eq hi, hg] at hend
                cases ok with
                | true => exact absurd hlt (Nat.not_lt.mpr hend)
                | false => cases hend.2
              · obtain ⟨-, -, p, hpush, hpads⟩ := (pads_succ hi).mp hpads
                rw [← cUInt_succ_add] at hend
                obtain ⟨g', hrun⟩ :=
                  (ih _ p.1 _ hnext).mpr ⟨k, Nat.lt_of_succ_lt_succ hk, hpads, hend⟩
                exact ⟨g', Option.bind_eq_some_iff.mpr ⟨p, hpush, hrun⟩⟩
      · have hrun : padLoop pos (fuel + 1) i l g = some ((l, true), g) := by
          rw [padLoop, if_neg hlt]
          rfl
        rw [hrun]
        constructor
        · rintro ⟨g', heq⟩
          cases heq
          exact ⟨0, Nat.succ_pos fuel, pads_zero.mpr rfl,
            by simpa [cUInt_eq hi] using Nat.not_lt.mp hlt⟩
        · rintro ⟨_ | k, -, hpads, hend⟩
          · cases ok with
            | true => exact ⟨_, by rw [pads_zero.mp hpads]⟩
            | false =>
                rw [if_neg Bool.false_ne_true, Nat.add_zero, cUInt_eq hi] at hend
                exact absurd hend.1 hlt
          · exact absurd ((pads_succ hi).mp hpads).1 hlt

/-! ## Linking -/

/-- What an insertion needs besides its entry: a counter that can get to an inner position,
and past the end all the padding, or none of it. -/
def InsertFits (l : LinkedList V) (pos : ℕ) (g : Grants) : Prop :=
  (0 < pos → pos < l.length → l.Finds (pos - 1)) ∧
    (l.length < pos → g 0 = false ∨ pos < 2 ^ 32 ∧ ∀ i < pos - l.length, g i = true)

/-- If it fits, the entry is linked at its position, or nothing happens. -/
theorem insertEntry_of_fits (h : Represents l ps xs) (hl : Loose l.entries a v) (ha : a ∉ ps)
    (hfits : InsertFits l pos g) :
    ∃ fuel l' r g', insertEntry fuel l (some a) pos g = some ((l', r), g') ∧
      (r = 0 ∧ (∃ ps', Represents l' ps' (insertPadded xs pos v)) ∨ r = -1 ∧ l' = l) := by
  have hi : cUInt l.length < 2 ^ 32 := Nat.mod_lt _ (Nat.two_pow_pos 32)
  by_cases hpast : l.length < pos
  · rcases hfits.2 hpast with hg | ⟨hpos, hgrants⟩
    · have hlt : cUInt (cUInt l.length + 0) < pos := by
        rw [Nat.add_zero, cUInt_eq hi]
        exact (Nat.mod_le _ _).trans_lt hpast
      obtain ⟨g', hpad⟩ : ∃ g', padLoop pos 1 (cUInt l.length) l g = some ((l, false), g') :=
        (padLoop_eq_some_iff 1 _ l g hi).mpr ⟨0, Nat.one_pos, pads_zero.mpr rfl, hlt, hg⟩
      refine ⟨1, l, -1, g', ?_, Or.inr ⟨rfl, rfl⟩⟩
      rw [insertEntry, if_pos hpast, bind_of_eq_some hpad]
      rfl
    · obtain ⟨l₁, -, hpad, -⟩ := Represents.padEntries_eq (pos - l.length) h
      have hlen : cUInt l.length = l.length := cUInt_eq (hpast.trans hpos)
      have hpads : Pads pos (cUInt l.length) g (pos - l.length) l l₁ := by
        refine ⟨fun j hj => ⟨?_, hgrants j hj⟩, hpad⟩
        rw [hlen, cUInt_eq (by omega)]
        omega
      have hend : pos ≤ cUInt (cUInt l.length + (pos - l.length)) := by
        rw [hlen, cUInt_eq (by omega)]
        omega
      obtain ⟨g', hloop⟩ : ∃ g', padLoop pos (pos - l.length).succ (cUInt l.length) l g =
          some ((l₁, true), g') :=
        (padLoop_eq_some_iff _ _ l g hi).mpr ⟨pos - l.length, Nat.lt_succ_self _, hpads, hend⟩
      rw [h.length] at hpad
      obtain ⟨l₂, ps₂, hpush, hrep⟩ := h.pushEntry_of_padded hl ha (h.length ▸ hpast) hpad
      refine ⟨(pos - l.length).succ, l₂, 0, g', ?_, Or.inl ⟨rfl, ps₂, hrep⟩⟩
      rw [insertEntry, if_pos hpast, bind_of_eq_some hloop]
      dsimp only
      rw [bind_of_eq_some (lift_eq_some.mpr ⟨hpush, rfl⟩)]
      rfl
  · have hle : pos ≤ ps.length := h.length ▸ Nat.not_lt.mp hpast
    obtain ⟨l', ps', hrun, hrep⟩ := h.insertEntry_of_le hl ha hle fun hpos hlt =>
      hfits.1 hpos (h.length ▸ hlt)
    refine ⟨0, l', 0, g, ?_, Or.inl ⟨rfl, ps', hrep⟩⟩
    rw [insertEntry, if_neg hpast]
    exact lift_eq_some.mpr ⟨hrun, rfl⟩

/-- If it does not fit, the list is broken, or it has got padding without the entry. -/
theorem insertEntry_cases (h : Represents l ps xs) (hl : Loose l.entries a v) (ha : a ∉ ps)
    (hrun : insertEntry fuel l (some a) pos g = some ((l', r), g')) :
    InsertFits l pos g ∨ (r = 0 ∧ ∀ ps' ys, ¬ Represents l' ps' ys) ∨
      ∃ k ps', k ≠ 0 ∧ r = -1 ∧ Represents l' ps' (xs ++ List.replicate k none) ∧
        Loose l'.entries a v ∧ a ∉ ps' := by
  have hi : cUInt l.length < 2 ^ 32 := Nat.mod_lt _ (Nat.two_pow_pos 32)
  by_cases hpast : l.length < pos
  · rw [insertEntry, if_pos hpast] at hrun
    obtain ⟨⟨l₁, ok⟩, g₁, hloop, hrun⟩ := bind_eq_some.mp hrun
    obtain ⟨k, -, hpads, hend⟩ := (padLoop_eq_some_iff fuel _ l g hi).mp ⟨g₁, hloop⟩
    have hlt : ¬ (0 < pos ∧ pos < l.length) := fun hlt => absurd hpast hlt.2.asymm
    cases ok with
    | true =>
        have hpos : pos < 2 ^ 32 := hend.trans_lt (Nat.mod_lt _ (Nat.two_pow_pos 32))
        have hle : cUInt (cUInt l.length + k) ≤ l.length + k :=
          (Nat.mod_le _ _).trans (Nat.add_le_add_right (Nat.mod_le _ _) k)
        refine Or.inl ⟨fun h₁ h₂ => absurd ⟨h₁, h₂⟩ hlt, fun _ => Or.inr ⟨hpos, fun j hj => ?_⟩⟩
        exact (hpads.rounds j (by rw [if_pos rfl] at hend; omega)).2
    | false =>
        cases hrun
        rcases Nat.eq_zero_or_pos k with rfl | hk
        · exact Or.inl ⟨fun h₁ h₂ => absurd ⟨h₁, h₂⟩ hlt, fun _ => Or.inl hend.2⟩
        · obtain ⟨l₂, ps₂, hpad, hrep, hkeep⟩ := Represents.padEntries_eq k h
          cases hpad.symm.trans hpads.padded
          obtain ⟨hnot, hcell⟩ := hkeep a ha (by simp [show l.entries a = _ from hl])
          exact Or.inr (Or.inr ⟨k, ps₂, hk.ne', rfl, hrep, hcell.trans hl, hnot⟩)
  · rw [insertEntry, if_neg hpast] at hrun
    obtain ⟨hrun, -⟩ := lift_eq_some.mp hrun
    by_cases hfinds : 0 < pos → pos < l.length → l.Finds (pos - 1)
    · exact Or.inl ⟨hfinds, fun hlt => absurd hlt hpast⟩
    · obtain ⟨hpos, hfinds⟩ := Classical.not_imp.mp hfinds
      obtain ⟨hlt, hfinds⟩ := Classical.not_imp.mp hfinds
      rw [h.length] at hlt
      exact Or.inr (Or.inl (h.not_represents_of_not_finds hl ha hpos hlt hfinds hrun))

/-! ## Inserting a new entry -/

/-- The call inserts the value and returns zero, or it returns -1 and leaves the contents. -/
def InsertsOrFails (call : ℕ → Allocating (LinkedList V × ℤ)) (g : Grants)
    (xs : List (Option V)) (pos : ℕ) (val : Option V) : Prop :=
  ∃ fuel l' r g' ps', call fuel g = some ((l', r), g') ∧
    (r = 0 ∧ Represents l' ps' (insertPadded xs pos val) ∨ r = -1 ∧ Represents l' ps' xs)

theorem insertsOrFails_congr {call call' : ℕ → Allocating (LinkedList V × ℤ)}
    (hcall : ∀ fuel, call fuel g = call' fuel g') (xs : List (Option V)) (pos : ℕ)
    (val : Option V) : InsertsOrFails call g xs pos val ↔ InsertsOrFails call' g' xs pos val := by
  unfold InsertsOrFails
  simp only [hcall]

theorem insertNew_iff (h : Represents l ps xs) (hl : Loose l.entries a v) (ha : a ∉ ps)
    (val : Option V) (pos : ℕ) (g : Grants) :
    InsertsOrFails (fun fuel => insertNew fuel l a val pos) g xs pos val ↔ InsertFits l pos g := by
  obtain ⟨es, hset, h₁, hl₁⟩ := h.setEntryValue_of_loose hl ha val
  refine (insertsOrFails_congr
    (fun fuel => bind_of_eq_some (lift_eq_some.mpr ⟨hset, rfl⟩)) _ _ _).trans ?_
  constructor
  · rintro ⟨fuel, l', r, g', ps', hrun, hend⟩
    obtain ⟨⟨l₂, r₂⟩, g₂, hinsert, hrun⟩ := bind_eq_some.mp hrun
    rcases insertEntry_cases h₁ hl₁ ha hinsert with
      hfits | ⟨rfl, hnot⟩ | ⟨k, ps₂, hk, rfl, hrep, hloose, hmem⟩
    · exact hfits
    · cases hrun
      rcases hend with ⟨-, hrep⟩ | ⟨hr, -⟩
      · exact absurd hrep (hnot _ _)
      · cases hr
    · obtain ⟨l₃, hdestroy, hrep₃⟩ := hrep.destroyEntry_eq hloose hmem
      dsimp only at hrun
      rw [if_pos (by decide), bind_of_eq_some (lift_eq_some.mpr ⟨hdestroy, rfl⟩)] at hrun
      cases hrun
      rcases hend with ⟨hr, -⟩ | ⟨-, hrep⟩
      · cases hr
      · have hsame := congrArg List.length (hrep₃.unique hrep).2
        rw [List.length_append, List.length_replicate] at hsame
        omega
  · intro hfits
    obtain ⟨fuel, l', r, g', hrun, hend⟩ := insertEntry_of_fits h₁ hl₁ ha hfits
    rcases hend with ⟨rfl, ps', hrep⟩ | ⟨rfl, rfl⟩
    · exact ⟨fuel, l', 0, g', ps', bind_of_eq_some hrun, Or.inl ⟨rfl, hrep⟩⟩
    · obtain ⟨l₃, hdestroy, hrep₃⟩ := h₁.destroyEntry_eq hl₁ ha
      refine ⟨fuel, l₃, -1, g', ps, (bind_of_eq_some hrun).trans ?_, Or.inr ⟨rfl, hrep₃⟩⟩
      dsimp only
      rw [if_pos (by decide)]
      exact bind_of_eq_some (lift_eq_some.mpr ⟨hdestroy, rfl⟩)

/-! ## The two insertions -/

theorem length_lt_length_insertPadded (xs : List (Option V)) (pos : ℕ) (v : Option V) :
    xs.length < (insertPadded xs pos v).length := by
  rw [insertPadded, List.length_insertIdx_of_le_length, List.length_append]
  · omega
  · rw [List.length_append, List.length_replicate]
    omega

/-- A call that reports success without having done anything. -/
theorem not_insertsOrFails (h : Represents l ps xs) {call : ℕ → Allocating (LinkedList V × ℤ)}
    {val : Option V} (hcall : ∀ fuel, ∃ g', call fuel g = some ((l, 0), g')) :
    ¬ InsertsOrFails call g xs pos val := by
  rintro ⟨fuel, l', r, g', ps', hrun, hend⟩
  obtain ⟨g₁, hzero⟩ := hcall fuel
  cases hzero.symm.trans hrun
  rcases hend with ⟨-, hrep⟩ | ⟨hr, -⟩
  · have hsame := congrArg List.length (h.unique hrep).2
    exact absurd hsame (length_lt_length_insertPadded xs pos val).ne
  · cases hr

theorem listInsertValue_iff (h : Represents l ps xs) (val : Option V) (pos : ℕ) (g : Grants) :
    InsertsOrFails (fun fuel => listInsertValue fuel l val pos) g xs pos val ↔
      g 0 = false ∨ InsertFits l pos fun n => g (n + 1) := by
  cases hg : g 0 with
  | false =>
      refine iff_of_true ⟨0, l, -1, fun n => g (n + 1), ps, ?_, Or.inr ⟨rfl, h⟩⟩ (Or.inl rfl)
      exact bind_of_eq_some (createEntry_refused l hg)
  | true =>
      obtain ⟨hrep, hloose, hnew, -⟩ := h.createEntry_eq
      refine (insertsOrFails_congr
        (fun fuel => bind_of_eq_some (createEntry_granted l hg)) _ _ _).trans ?_
      refine (insertNew_iff hrep hloose hnew val pos _).trans ?_
      exact (or_iff_right Bool.true_eq_false.mp).symm

theorem listInsertTaggedValue_iff (h : Represents l ps xs) (tval : Option V) (pos : ℕ)
    (g : Grants) :
    InsertsOrFails (fun fuel => listInsertTaggedValue fuel l tval pos) g xs pos tval ↔
      tval ≠ none ∧ g 0 = true ∧ InsertFits l pos fun n => g (n + 1) := by
  cases tval with
  | none => exact iff_of_false (not_insertsOrFails h fun _ => ⟨g, rfl⟩) fun hnot => hnot.1 rfl
  | some tval =>
      cases hg : g 0 with
      | false =>
          refine iff_of_false (not_insertsOrFails h fun _ => ⟨fun n => g (n + 1), ?_⟩) ?_
          · exact bind_of_eq_some (createEntry_refused l hg)
          · exact fun hnot => Bool.false_ne_true hnot.2.1
      | true =>
          obtain ⟨hrep, hloose, hnew, -⟩ := h.createEntry_eq
          refine (insertsOrFails_congr
            (fun fuel => bind_of_eq_some (createEntry_granted l hg)) _ _ _).trans ?_
          refine (insertNew_iff hrep hloose hnew (some tval) pos _).trans ?_
          exact ⟨fun hfits => ⟨Option.some_ne_none _, rfl, hfits⟩, fun hfits => hfits.2.2⟩

/-- Whether the insertions do one or the other.  The one for tagged values also reports
success when it has no value, or no entry for it. -/
theorem insertions_iff (h : Represents l ps xs) (val tval : Option V) (pos : ℕ) (g : Grants) :
    (InsertsOrFails (fun fuel => listInsertValue fuel l val pos) g xs pos val ↔
      g 0 = false ∨ InsertFits l pos fun n => g (n + 1)) ∧
    (InsertsOrFails (fun fuel => listInsertTaggedValue fuel l tval pos) g xs pos tval ↔
      tval ≠ none ∧ g 0 = true ∧ InsertFits l pos fun n => g (n + 1)) :=
  ⟨listInsertValue_iff h val pos g, listInsertTaggedValue_iff h tval pos g⟩

/-- Without any memory the first insertion fails as it should, and the second one does not;
with memory both insert. -/
theorem insertions_iff_empty :
    InsertsOrFails (fun fuel => listInsertValue fuel (listCreate : LinkedList ℕ) (some 7) 2)
        (fun _ => false) [] 2 (some 7) ∧
      ¬ InsertsOrFails
        (fun fuel => listInsertTaggedValue fuel (listCreate : LinkedList ℕ) (some 7) 2)
        (fun _ => false) [] 2 (some 7) ∧
      InsertsOrFails
        (fun fuel => listInsertTaggedValue fuel (listCreate : LinkedList ℕ) (some 7) 2)
        plenty [] 2 (some 7) := by
  have hfits : InsertFits (listCreate : LinkedList ℕ) 2 fun n => plenty (n + 1) :=
    ⟨fun _ hlt => absurd hlt (by decide), fun _ => Or.inr ⟨by decide, fun _ _ => rfl⟩⟩
  obtain ⟨hvalue, htagged⟩ :=
    insertions_iff represents_listCreate (some 7) (some 7) 2 fun _ => false
  obtain ⟨-, hplenty⟩ := insertions_iff represents_listCreate (some 7) (some 7) 2 plenty
  exact ⟨hvalue.mpr (Or.inl rfl), fun hinserts => Bool.false_ne_true (htagged.mp hinserts).2.1,
    hplenty.mpr ⟨Option.some_ne_none _, rfl, hfits⟩⟩

/-- Position two of an empty list: the second empty entry is refused, and the first one stays.
A tagged value that gets no entry is reported to be there. -/
theorem padding_stays :
    (∃ l' g', listInsertValue 3 (listCreate : LinkedList ℕ) (some 7) 2 (fun n => n < 2) =
        some ((l', -1), g') ∧ l'.listCount = 1) ∧
      ¬ InsertsOrFails (fun fuel => listInsertValue fuel (listCreate : LinkedList ℕ) (some 7) 2)
        (fun n => n < 2) [] 2 (some 7) ∧
      (∃ l' g', listInsertTaggedValue 3 (listCreate : LinkedList ℕ) (some 7) 0 (fun _ => false) =
        some ((l', 0), g') ∧ l'.listCount = 0) ∧
      ¬ InsertsOrFails
        (fun fuel => listInsertTaggedValue fuel (listCreate : LinkedList ℕ) (some 7) 0)
        (fun _ => false) [] 0 (some 7) := by
  refine ⟨⟨_, _, rfl, rfl⟩, ?_, ⟨_, _, rfl, rfl⟩, ?_⟩
  · rw [listInsertValue_iff represents_listCreate]
    rintro (hg | ⟨-, hpad⟩)
    · exact absurd hg (by decide)
    · rcases hpad (by decide) with hg | ⟨-, hgrants⟩
      · exact absurd hg (by decide)
      · exact absurd (hgrants 1 (by decide)) (by decide)
  · rw [listInsertTaggedValue_iff represents_listCreate]
    exact fun hnot => Bool.false_ne_true hnot.2.1

end Scarce
end LinkedList
end LibHL
