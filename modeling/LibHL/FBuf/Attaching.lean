import LibHL.FBuf.Capacity

/-!
# Handing storage over

`fbuf_attach` enlarges a block that is full, but records the length it was given.  The length
that `fbuf_detach` hands out is an `int`, so a longer one comes back as a negative number.
-/

namespace LibHL
namespace FBuf

open Storage Circular

variable {alloc : ℕ → Bool} {fb fb' : FBuf} {cs : List (Option UInt8)} {used : ℕ} {len : ℤ}

/-- The buffer holds the first `used` bytes of the block, is terminated, and its length is that
of its storage and has room for the terminator. -/
structure HoldsBlock (fb : FBuf) (cs : List (Option UInt8)) (used : ℕ) : Prop where
  contents : contents fb = cs.take used
  used_eq : fb.used = used
  terminated : Terminated fb
  room : used + 1 ≤ fb.len
  whole : fb.len = (cells fb).length

/-- `fbuf_attach` leads to such a buffer. -/
def Attaches (alloc : ℕ → Bool) (fb : FBuf) (cs : List (Option UInt8)) (used : ℕ) : Prop :=
  ∃ fb' r, fbufAttach alloc fb (some cs) cs.length used = some (fb', r) ∧ HoldsBlock fb' cs used

/-- What `fbuf_detach` hands out can be attached again, and the content is the same. -/
def Restores (alloc : ℕ → Bool) (fb : FBuf) : Prop :=
  ∃ fb₁ used buf len fb₂ r, fbufDetach alloc fb = some (fb₁, used, some (buf, len)) ∧
    fbufAttach alloc fb₁ buf len (toInt used) = some (fb₂, r) ∧ SameContent fb fb₂

/-- The number of bytes is a positive `int` with the terminator, the storage can be compacted
if it has to be, and there is memory for the content, or the length is an `int` as well. -/
def RestoreFits (alloc : ℕ → Bool) (fb : FBuf) : Prop :=
  fb.used < INT_MAX ∧ (fb.skip ≠ 0 → ShrinkEnds fb) ∧
    (alloc (fb.used + 1) = true ∨
      if fb.skip = 0 then fb.len ≤ INT_MAX
      else ∀ newlen, ShrinksTo fb newlen → shrunkLen alloc fb newlen ≤ INT_MAX)

/-! ## Attaching -/

/-- Taking over a block that has room for the terminator. -/
theorem attachData_eq (hroom : used < cs.length) (hused : used < UINT_RANGE) (fb : FBuf)
    (len : ℤ) :
    attachData fb (some cs) len used =
      some ({ fb with
        data := some (overwrite cs used [some 0])
        len := toUInt len
        used := used
        skip := 0 }, fb.used) := by
  have hneg : ¬ (used : ℤ) < 0 := Int.not_lt.mpr (Int.natCast_nonneg used)
  have hfit : used + [some (0 : UInt8)].length ≤ cs.length := hroom
  rw [attachData, if_neg hneg, Int.toNat_natCast, poke_of_le hfit, toUInt_natCast hused]
  rfl

theorem take_overwrite {off : ℕ} {xs : List (Option UInt8)} (hfit : off + xs.length ≤ cs.length) :
    (overwrite cs off xs).take off = cs.take off := by
  rw [overwrite, List.append_assoc, List.take_append_of_le_length, List.take_take, Nat.min_self]
  rw [List.length_take]
  omega

theorem attaches_iff (alloc : ℕ → Bool) (fb : FBuf) (hlen : cs.length ≤ INT_MAX)
    (hused : used ≤ cs.length) : Attaches alloc fb cs used ↔ used < cs.length := by
  have hrange : UINT_RANGE = 2 ^ 32 := rfl
  have hmax : INT_MAX = 2 ^ 31 - 1 := rfl
  by_cases hroom : used < cs.length
  · refine iff_of_true ?_ hroom
    have hfit : used + [some (0 : UInt8)].length ≤ cs.length := hroom
    have hbehind : (overwrite cs used [some 0])[used]? = some (some 0) := by
      rw [getElem?_overwrite hfit, List.length_singleton, if_pos (by omega), Nat.sub_self]
      rfl
    refine ⟨_, fb.used, (if_pos (by omega)).trans (attachData_eq hroom (by omega) fb _), ?_⟩
    rw [toUInt_natCast (by omega)]
    refine ⟨take_overwrite hfit, rfl, ?_, hroom, (length_overwrite hfit).symm⟩
    intro _
    refine ⟨?_, ?_⟩
    · show 0 + used < cs.length
      omega
    · show (overwrite cs used [some 0])[0 + used]? = _
      rw [Nat.zero_add, hbehind]
  · refine iff_of_false ?_ hroom
    rintro ⟨fb', r, hrun, hholds⟩
    have hroom' := hholds.room
    rw [fbufAttach, if_neg (by omega)] at hrun
    by_cases hover : (used : ℤ) < 0 ∨ (INT_MAX : ℤ) ≤ used
    · rw [if_pos hover] at hrun
      cases hrun
    rw [if_neg hover] at hrun
    by_cases halloc : alloc ((used : ℤ) + 1).toNat = true
    · have hblock := length_resize (some cs) ((used : ℤ) + 1).toNat
      rw [if_pos halloc, resize, attachData_eq] at hrun
      · obtain ⟨rfl, -⟩ := Prod.mk.inj (Option.some.inj hrun)
        have hrecorded : used + 1 ≤ toUInt cs.length := hroom'
        rw [toUInt_natCast (by omega)] at hrecorded
        omega
      · rw [resize, Option.getD_some] at hblock
        rw [hblock]
        omega
      · omega
    · rw [if_neg halloc] at hrun
      obtain ⟨rfl, -⟩ := Prod.mk.inj (Option.some.inj hrun)
      have hwhole : fb.len = 0 := hholds.whole
      have hempty : used + 1 ≤ fb.len := hroom'
      omega

/-! ## Detaching and attaching again -/

/-- What is left of a buffer when its storage was handed out. -/
def emptied (fb : FBuf) : FBuf := { fb with data := none, len := 0, used := 0, skip := 0 }

/-- The block that is handed out begins with the content. -/
theorem fbufDetach_eq (alloc : ℕ → Bool) (h : Backed fb) (hused : fb.used ≠ 0)
    (hends : fb.skip ≠ 0 → ShrinkEnds fb) :
    ∃ cs len, fbufDetach alloc fb =
        some (emptied fb, fb.used, some (some cs, toInt len)) ∧
      fb.used < cs.length ∧ cs.take fb.used = contents fb ∧ fb.used < len ∧ len < UINT_RANGE ∧
      (len ≤ INT_MAX ↔
        if fb.skip = 0 then fb.len ≤ INT_MAX
        else ∀ newlen, ShrinksTo fb newlen → shrunkLen alloc fb newlen ≤ INT_MAX) := by
  have hlt := h.used_lt_len hused
  have hranges := h.ranges
  rcases h.storage with ⟨-, hzero, -⟩ | ⟨cs, hdata, hcells, hinside, -⟩
  · exact absurd hzero hused
  rw [fbufDetach, if_neg hused]
  by_cases hskip : fb.skip = 0
  · refine ⟨cs, fb.len, ?_, by omega, ?_, hlt, hranges.len_lt, ?_⟩
    · rw [if_neg (not_not.mpr hskip)]
      simp only [Option.bind_eq_bind, Option.bind_some, hdata]
      rfl
    · rw [contents, hcells, hskip, List.drop_zero]
    · rw [if_pos hskip]
  · obtain ⟨newlen, hto⟩ := (hends hskip).shrinksTo hranges hlt
    obtain ⟨data, hrun, hbacked, hsame, -, -⟩ := fbufShrink_stops alloc h hused hto
    obtain ⟨cs', rfl⟩ : ∃ cs', data = some cs' :=
      Option.isSome_iff_exists.mp (hbacked.isSome_of_used hused)
    have hinside' : 0 + fb.used < cs'.length := hbacked.inside rfl
    refine ⟨cs', shrunkLen alloc fb newlen, ?_, by omega, hsame.contents,
      hbacked.used_lt_len hused, hbacked.ranges.len_lt, ?_⟩
    · rw [if_pos hskip, hrun]
      rfl
    · rw [if_neg hskip]
      constructor
      · intro hle newlen' hto'
        rwa [hto'.unique hto]
      · exact fun hall => hall newlen hto

/-- Attaching a block that has room, with a length that may not be an `int`. -/
theorem reattach_iff {len : ℕ} (alloc : ℕ → Bool) (fb : FBuf) (hzero : fb.used = 0)
    (hused : used ≠ 0) (hroom : used < cs.length) (hlen : used < len) (hlt : len < UINT_RANGE) :
    (∃ fb' r, fbufAttach alloc fb (some cs) (toInt len) (toInt used) = some (fb', r) ∧
      fb'.used = used ∧ contents fb' = cs.take used) ↔
      used < INT_MAX ∧ (alloc (used + 1) = true ∨ len ≤ INT_MAX) := by
  have hrange : UINT_RANGE = 2 ^ 32 := rfl
  have hmax : INT_MAX = 2 ^ 31 - 1 := rfl
  have hattached : ∀ {block : List (Option UInt8)} (n : ℤ), used < block.length →
      block.take used = cs.take used →
      ∃ fb' r, attachData fb (some block) n used = some (fb', r) ∧
        fb'.used = used ∧ contents fb' = cs.take used := by
    intro block n hblock hsame
    refine ⟨_, _, attachData_eq hblock (by omega) fb n, rfl, ?_⟩
    rw [← hsame]
    exact take_overwrite hblock
  by_cases hsmall : used < INT_MAX
  · rw [toInt_of_le hsmall.le]
    by_cases hint : len ≤ INT_MAX
    · refine iff_of_true ?_ ⟨hsmall, Or.inr hint⟩
      rw [toInt_of_le hint, fbufAttach, if_pos (by omega)]
      exact hattached _ hroom rfl
    · have hneg := toInt_of_lt (Nat.not_le.mp hint) hlt
      have hpos : ((used : ℤ) + 1).toNat = used + 1 := by omega
      rw [fbufAttach, if_neg (by omega), if_neg (by omega), hpos]
      cases halloc : alloc (used + 1) with
      | true =>
          refine iff_of_true ?_ ⟨hsmall, Or.inl rfl⟩
          have hblock := length_resize (some cs) (used + 1)
          rw [resize, Option.getD_some] at hblock
          rw [if_pos rfl, resize]
          refine hattached _ (by rw [hblock]; omega) ?_
          exact take_resize (Nat.le_succ used) hroom.le
      | false =>
          refine iff_of_false ?_ fun hfits => ?_
          · rintro ⟨fb', r, heq, hkept, -⟩
            rw [if_neg Bool.false_ne_true] at heq
            cases heq
            exact hused (hkept.symm.trans hzero)
          · rcases hfits.2 with hmemory | hle
            · exact Bool.false_ne_true hmemory
            · exact hint hle
  · refine iff_of_false ?_ fun hfits => hsmall hfits.1
    rintro ⟨fb', r, hrun, -⟩
    have hlarge : INT_MAX ≤ used := Nat.not_lt.mp hsmall
    have hneg := toInt_of_lt (by omega : INT_MAX < len) hlt
    rw [fbufAttach] at hrun
    rcases hlarge.lt_or_eq with hmore | heq
    · have hneg' := toInt_of_lt hmore (by omega)
      by_cases hless : toInt used < toInt len
      · rw [if_pos hless, attachData, if_pos hneg'] at hrun
        cases hrun
      · rw [if_neg hless, if_pos (Or.inl hneg')] at hrun
        cases hrun
    · rw [toInt_of_le heq.ge, if_neg (by omega), if_pos (Or.inr (by omega))] at hrun
      cases hrun

theorem restores_iff (h : Backed fb) (hused : fb.used ≠ 0) :
    Restores alloc fb ↔ RestoreFits alloc fb := by
  by_cases hends : fb.skip ≠ 0 → ShrinkEnds fb
  · obtain ⟨cs, len, hdetach, hroom, hcontents, hlen, hlt, hint⟩ :=
      fbufDetach_eq alloc h hused hends
    rw [RestoreFits, ← hint, and_iff_right hends, ← reattach_iff alloc (emptied fb) rfl hused
      hroom hlen hlt, Restores, hdetach]
    constructor
    · rintro ⟨fb₁, used, buf, len', fb₂, r, heq, hattach, hsame⟩
      cases heq
      exact ⟨fb₂, r, hattach, hsame.used, hsame.contents.trans hcontents.symm⟩
    · rintro ⟨fb₂, r, hattach, hkept, hsame⟩
      exact ⟨_, _, _, _, fb₂, r, rfl, hattach, hkept, hsame.trans hcontents⟩
  · refine iff_of_false ?_ fun hfits => hends hfits.2.1
    rintro ⟨fb₁, used, buf, len, fb₂, r, hdetach, -⟩
    obtain ⟨hskip, hnever⟩ := Classical.not_imp.mp hends
    rw [fbufDetach, if_neg hused, if_pos hskip] at hdetach
    obtain ⟨fb', hshrink, -⟩ := Option.bind_eq_some_iff.mp hdetach
    obtain ⟨r', hshrink', -⟩ := Option.map_eq_some_iff.mp hshrink
    obtain ⟨newlen, hto⟩ := shrinksTo_of_fbufShrink h hused hshrink'
    exact hnever (hto.shrinkEnds h.ranges)

/-- Storage is handed over as it should be exactly under these conditions: out of a buffer and
back, if the numbers are `int`s; and a block, if it is not full. -/
theorem handsOver_iff (hreach : Reachable AnyMemory fb) (hused : fb.used ≠ 0) (target : FBuf)
    (hlen : cs.length ≤ INT_MAX) (hin : used ≤ cs.length) :
    (Restores alloc fb ↔ RestoreFits alloc fb) ∧
      (Attaches alloc target cs used ↔ used < cs.length) :=
  ⟨restores_iff hreach.backed hused, attaches_iff alloc target hlen hin⟩

/-- The length of a full block is recorded without the terminator. -/
theorem attach_records_short_length :
    ¬ Attaches (fun _ => true) (fbufCreate FBUF_MAXLEN_NONE) ([97, 98, 99].map some) 3 := by
  rintro ⟨fb', r, hrun, hholds⟩
  have hlen : (fbufAttach (fun _ => true) (fbufCreate FBUF_MAXLEN_NONE)
      (some ([97, 98, 99].map some)) (3 : ℕ) (3 : ℕ)).map (fun r => r.1.len) = some 3 := rfl
  have hsame : fbufAttach (fun _ => true) (fbufCreate FBUF_MAXLEN_NONE)
      (some ([97, 98, 99].map some)) (3 : ℕ) (3 : ℕ) = some (fb', r) := hrun
  rw [hsame, Option.map_some] at hlen
  have hroom := hholds.room
  rw [Option.some.inj hlen] at hroom
  exact absurd hroom (by decide)

theorem handsOver_iff_steepFull :
    (Restores (fun _ => true) steepFull ↔ RestoreFits (fun _ => true) steepFull) ∧
      (Attaches (fun _ => true) (fbufCreate FBUF_MAXLEN_NONE) [some 97, none] 1 ↔
        1 < [some (97 : UInt8), none].length) :=
  handsOver_iff steepFull_reachable (by decide) _ (by decide) (by decide)

end FBuf
end LibHL
