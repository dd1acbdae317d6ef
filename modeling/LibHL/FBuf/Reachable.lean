import LibHL.FBuf.Shrinking

/-!
# Reachable flat buffers

Whatever a call writes lies in the storage, so that a call with a result leaves the content in
the storage, with a byte behind it.  Allocations may fail, and then the length is no longer that
of the storage.
-/

namespace LibHL
namespace FBuf

open Storage Circular

variable {alloc : ℕ → Bool} {fb fb' : FBuf} {data : Storage UInt8} {full : Prop}
  {bytes : List (Option UInt8)} {str : List UInt8}

/-- Every allocation succeeds. -/
def EnoughMemory (alloc : ℕ → Bool) : Prop := ∀ n, alloc n = true

/-- Allocations may fail. -/
def AnyMemory (_ : ℕ → Bool) : Prop := True

/-- The storage is not longer than the length, and as long unless an allocation may fail. -/
structure Stored (full : Prop) (fb : FBuf) : Prop where
  ranges : Ranges fb
  cells_le : (cells fb).length ≤ fb.len
  whole : full → (cells fb).length = fb.len

/-- The content lies in such a storage, with a byte behind it. -/
structure Kept (full : Prop) (fb : FBuf) : Prop extends Backed fb where
  whole : full → (cells fb).length = fb.len

theorem Kept.stored (h : Kept full fb) : Stored full fb := ⟨h.ranges, h.cells_le, h.whole⟩

theorem Stored.kept (h : Stored full fb) (hin : fb.skip + fb.used < (cells fb).length) :
    Kept full fb := ⟨backed_of_inside h.ranges h.cells_le hin, h.whole⟩

theorem Stored.write (h : Stored full fb) (hlen : (data.getD []).length = (cells fb).length)
    (skip used : ℕ) : Stored full { fb with data := data, skip := skip, used := used } where
  ranges := ⟨h.ranges.len_lt, h.ranges.maxlen_lt, h.ranges.minlen_lt,
    h.ranges.fastgrowsize_lt, h.ranges.slowgrowsize_lt⟩
  cells_le := hlen.trans_le h.cells_le
  whole := fun hfull => hlen.trans (h.whole hfull)

/-- The content ends at another place in the same storage. -/
theorem Kept.write (h : Kept full fb) (hlen : (data.getD []).length = (cells fb).length)
    {skip used : ℕ} (hin : skip + used < (cells fb).length) :
    Kept full { fb with data := data, skip := skip, used := used } :=
  (h.stored.write hlen skip used).kept (hin.trans_eq hlen.symm)

/-! ## Extending and shrinking -/

theorem Extended.kept {N r : ℕ} (h : Kept full fb) (halloc : full → EnoughMemory alloc)
    (hext : Extended alloc fb N fb' r) : Kept full fb' := by
  refine ⟨hext.backed h.toBacked, fun hfull => ?_⟩
  cases hext with
  | room hroom => exact h.whole hfull
  | refused hmore hover => exact h.whole hfull
  | compacted hmore hfit hlen hcontents hbehind => exact hlen.trans (h.whole hfull)
  | failed hmore hfits hrequests hfails =>
      rw [halloc hfull] at hfails
      cases hfails
  | reallocated hmore hfits hrequests hmemory hused hlen hcontents hbehind => exact hlen

theorem Extended.skip_le {N r : ℕ} (hext : Extended alloc fb N fb' r) : fb'.skip ≤ fb.skip := by
  cases hext with
  | room hroom => exact le_rfl
  | refused hmore hover => exact le_rfl
  | compacted hmore hfit hlen hcontents hbehind => exact Nat.zero_le _
  | failed hmore hfits hrequests hfails => exact le_rfl
  | reallocated hmore hfits hrequests hmemory hused hlen hcontents hbehind =>
      exact Nat.zero_le _

theorem fbufExtend_kept {newlen : ℕ} {r : FBuf × ℕ} (h : Kept full fb)
    (halloc : full → EnoughMemory alloc) (hrun : fbufExtend alloc fb newlen = some r) :
    Kept full r.1 ∧ r.1.used = fb.used ∧ r.1.skip ≤ fb.skip := by
  have hcases := fbufExtend_cases h.toBacked hrun
  exact ⟨hcases.kept h halloc, hcases.sameContent.used, hcases.skip_le⟩

theorem fbufShrink_kept {r : FBuf × ℕ} (h : Kept full fb)
    (hrun : fbufShrink alloc fb = some r) :
    Kept full r.1 ∧ r.1.used = fb.used ∧ r.1.skip = 0 := by
  by_cases hused : fb.used = 0
  · obtain ⟨data, hempty, hfree, hkeep⟩ := fbufShrink_empty alloc h.toBacked hused
    rw [hempty] at hrun
    cases hrun
    have hcells : (data.getD []).length = 0 := by
      by_cases hlen : fb.len = 0
      · rw [hkeep hlen]
        exact Nat.le_zero.mp (h.cells_le.trans_eq hlen)
      · rw [hfree hlen]
        rfl
    refine ⟨⟨⟨⟨Nat.two_pow_pos 32, h.ranges.maxlen_lt, h.ranges.minlen_lt,
      h.ranges.fastgrowsize_lt, h.ranges.slowgrowsize_lt⟩, hcells.le, ?_, fun _ => ⟨hused, rfl⟩⟩,
      fun _ => hcells⟩, rfl, rfl⟩
    intro hdata
    exfalso
    by_cases hlen : fb.len = 0
    · have := h.covers (by rwa [hkeep hlen] at hdata)
      omega
    · rw [hfree hlen] at hdata
      cases hdata
  · obtain ⟨newlen, hto⟩ := shrinksTo_of_fbufShrink h.toBacked hused hrun
    obtain ⟨data, hstops, hbacked, -, -, hsound⟩ :=
      fbufShrink_stops alloc h.toBacked hused hto
    rw [hstops] at hrun
    cases hrun
    exact ⟨⟨hbacked, fun hfull => (hsound ⟨h.toBacked, h.whole hfull⟩).whole⟩, rfl, rfl⟩

/-! ## Writing -/

theorem terminate_eq_some (hrun : terminate fb = some fb') :
    ∃ data, fb' = { fb with data := data } ∧ (data.getD []).length = (cells fb).length ∧
      uadd fb.skip fb.used < (cells fb).length := by
  obtain ⟨data, hpoke, heq⟩ := Option.bind_eq_some_iff.mp hrun
  exact ⟨data, (Option.some.inj heq).symm, length_poke hpoke,
    le_of_poke (List.cons_ne_nil _ _) hpoke⟩

theorem terminate_kept (h : Stored full fb) (hsum : fb.skip + fb.used < UINT_RANGE)
    (hrun : terminate fb = some fb') : Kept full fb' := by
  obtain ⟨data, rfl, hlen, hin⟩ := terminate_eq_some hrun
  rw [uadd_of_lt hsum] at hin
  exact (h.write hlen fb.skip fb.used).kept (lt_of_lt_of_eq hin hlen.symm)

theorem fbufClear_kept (h : Kept full fb) (hrun : fbufClear fb = some fb') :
    Kept full fb' ∧ fb'.skip = 0 := by
  rw [fbufClear] at hrun
  by_cases hlen : 0 < fb.len
  · rw [if_pos hlen] at hrun
    obtain ⟨data, hpoke, heq⟩ := Option.bind_eq_some_iff.mp hrun
    obtain rfl := Option.some.inj heq
    have hin := le_of_poke (List.cons_ne_nil _ _) hpoke
    rw [List.length_singleton] at hin
    exact ⟨h.write (length_poke hpoke) hin, rfl⟩
  · rw [if_neg hlen] at hrun
    cases hrun
    have hstored := h.stored.write rfl 0 0
    refine ⟨⟨⟨hstored.ranges, hstored.cells_le, fun hdata => ?_, fun _ => ⟨rfl, rfl⟩⟩,
      hstored.whole⟩, rfl⟩
    have := h.covers hdata
    omega

/-- A function that returns at once if the buffer cannot be extended. -/
theorem extendFirst_kept {minlen : ℕ} {failed : ℤ} {go : FBuf × ℕ → Option (FBuf × ℤ)}
    {r : FBuf × ℤ} (h : Kept full fb) (halloc : full → EnoughMemory alloc)
    (hrun : ((fbufExtend alloc fb minlen).bind fun ext =>
      if ext.2 = 0 then some (ext.1, failed) else go ext) = some r)
    (hgo : ∀ ext, Kept full ext.1 → ext.1.used = fb.used → ext.1.skip ≤ fb.skip →
      go ext = some r → Kept full r.1) : Kept full r.1 := by
  obtain ⟨ext, hext, hrun⟩ := Option.bind_eq_some_iff.mp hrun
  obtain ⟨hkept, hused, hskip⟩ := fbufExtend_kept h halloc hext
  by_cases hzero : ext.2 = 0
  · rw [if_pos hzero] at hrun
    cases hrun
    exact hkept
  · rw [if_neg hzero] at hrun
    exact hgo ext hkept hused hskip hrun

theorem fbufAddBinary_kept {r : FBuf × ℤ} (h : Kept full fb)
    (halloc : full → EnoughMemory alloc) (hrun : fbufAddBinary alloc fb bytes = some r) :
    Kept full r.1 := by
  rw [fbufAddBinary] at hrun
  by_cases hnil : bytes.length = 0
  · rw [if_pos hnil] at hrun
    cases hrun
    exact h
  rw [if_neg hnil] at hrun
  refine extendFirst_kept h halloc hrun ?_
  rintro ext hkept - - hrun
  obtain ⟨data, hpoke, hrun⟩ := Option.bind_eq_some_iff.mp hrun
  obtain ⟨fb', hterm, heq⟩ := Option.bind_eq_some_iff.mp hrun
  obtain rfl := Option.some.inj heq
  have hne : bytes ≠ [] := fun hnil' => hnil (List.length_eq_zero_iff.mpr hnil')
  have hin := le_of_poke hne hpoke
  have hsum := hkept.used_lt
  have hlt := hkept.cells_lt
  rw [cells] at hlt
  rw [uadd_of_lt (by omega : ext.1.skip + ext.1.used < UINT_RANGE)] at hin
  refine terminate_kept (hkept.stored.write (length_poke hpoke) _ _) ?_ hterm
  show ext.1.skip + uadd ext.1.used bytes.length < UINT_RANGE
  rw [uadd_of_lt (by omega)]
  omega

theorem fbufAdd_kept {r : FBuf × ℤ} (h : Kept full fb) (halloc : full → EnoughMemory alloc)
    (hrun : fbufAdd alloc fb str = some r) : Kept full r.1 := by
  rw [fbufAdd] at hrun
  by_cases hnil : cstring str = []
  · rw [if_pos hnil] at hrun
    cases hrun
    exact h
  · rw [if_neg hnil] at hrun
    exact fbufAddBinary_kept h halloc hrun

theorem fbufPrependBinary_kept {r : FBuf × ℤ} (h : Kept full fb)
    (halloc : full → EnoughMemory alloc) (hrun : fbufPrependBinary alloc fb bytes = some r) :
    Kept full r.1 := by
  rw [fbufPrependBinary] at hrun
  dsimp only at hrun
  by_cases hnil : bytes.length = 0
  · rw [if_pos hnil] at hrun
    cases hrun
    exact h
  rw [if_neg hnil] at hrun
  have hne : bytes ≠ [] := fun hnil' => hnil (List.length_eq_zero_iff.mpr hnil')
  have hsum := h.used_lt
  by_cases hfront : (bytes.length : ℤ) ≤ toInt fb.skip
  · rw [if_pos hfront] at hrun
    obtain ⟨data, hpoke, heq⟩ := Option.bind_eq_some_iff.mp hrun
    obtain rfl := Option.some.inj heq
    have hskip : bytes.length ≤ fb.skip := by
      have := toInt_le_self fb.skip
      omega
    have hin := le_of_poke hne hpoke
    have hsome : fb.data.isSome = true := by
      obtain ⟨cells, hdata, -, -⟩ := poke_eq_some hne hpoke
      rw [hdata]
      rfl
    have hinside := h.inside hsome
    refine h.write (length_poke hpoke) ?_
    rw [usub_of_le hskip (by omega), uadd_of_lt (by omega)]
    omega
  rw [if_neg hfront] at hrun
  refine extendFirst_kept h halloc hrun ?_
  rintro ext hkept - - hrun
  obtain ⟨moved, hpeek, hrun⟩ := Option.bind_eq_some_iff.mp hrun
  obtain ⟨data, hmove, hrun⟩ := Option.bind_eq_some_iff.mp hrun
  obtain ⟨data', hpoke, heq⟩ := Option.bind_eq_some_iff.mp hrun
  obtain rfl := Option.some.inj heq
  have hsum' := hkept.used_lt
  obtain ⟨hcount, -⟩ := peek_eq_some hpeek
  rw [uadd_of_lt (by omega : ext.1.used + 1 < UINT_RANGE)] at hcount
  have hmoved : moved ≠ [] := List.ne_nil_of_length_pos (by omega)
  have hin := le_of_poke hmoved hmove
  have hlt := hkept.cells_lt
  rw [cells] at hlt
  have hadd : uadd ext.1.used bytes.length = ext.1.used + bytes.length := uadd_of_lt (by omega)
  refine hkept.write ((length_poke hpoke).trans (length_poke hmove)) ?_
  rw [hadd, cells]
  omega

theorem fbufConcat_kept {src : FBuf} {r : FBuf × ℤ} (h : Kept full fb) (hsrc : Backed src)
    (halloc : full → EnoughMemory alloc) (hrun : fbufConcat alloc fb src = some r) :
    Kept full r.1 := by
  rw [fbufConcat] at hrun
  by_cases hnil : src.used = 0
  · rw [if_pos hnil] at hrun
    cases hrun
    exact h
  rw [if_neg hnil] at hrun
  refine extendFirst_kept h halloc hrun ?_
  rintro ext hkept - - hrun
  obtain ⟨bytes, hpeek, hrun⟩ := Option.bind_eq_some_iff.mp hrun
  obtain ⟨data, hpoke, heq⟩ := Option.bind_eq_some_iff.mp hrun
  obtain rfl := Option.some.inj heq
  have hsum := hkept.used_lt
  have hsum' := hsrc.used_lt
  obtain ⟨hcount, -⟩ := peek_eq_some hpeek
  rw [uadd_of_lt (by omega : src.used + 1 < UINT_RANGE)] at hcount
  have hin := le_of_poke (List.ne_nil_of_length_pos (by omega)) hpoke
  rw [uadd_of_lt (by omega : ext.1.skip + ext.1.used < UINT_RANGE)] at hin
  have hlt := hkept.cells_lt
  rw [cells] at hlt
  refine hkept.write (length_poke hpoke) ?_
  rw [uadd_of_lt (by omega), cells]
  omega

theorem fbufCopy_kept {src : FBuf} {r : FBuf × ℤ} (h : Kept full fb) (hsrc : Backed src)
    (halloc : full → EnoughMemory alloc) (hrun : fbufCopy alloc src fb = some r) :
    Kept full r.1 := by
  refine extendFirst_kept h halloc hrun ?_
  rintro ext hkept - - hrun
  obtain ⟨cleared, hclear, hrun⟩ := Option.bind_eq_some_iff.mp hrun
  obtain ⟨bytes, -, hrun⟩ := Option.bind_eq_some_iff.mp hrun
  obtain ⟨data, hpoke, hrun⟩ := Option.bind_eq_some_iff.mp hrun
  obtain ⟨fb', hterm, heq⟩ := Option.bind_eq_some_iff.mp hrun
  obtain rfl := Option.some.inj heq
  obtain ⟨hcleared, hskip⟩ := fbufClear_kept hkept hclear
  refine terminate_kept (hcleared.stored.write (length_poke hpoke) _ _) ?_ hterm
  show cleared.skip + src.used < UINT_RANGE
  have := hsrc.used_lt
  omega

theorem fbufSet_kept {r : FBuf × ℤ} (h : Kept full fb) (halloc : full → EnoughMemory alloc)
    (hrun : fbufSet alloc fb str = some r) : Kept full r.1 := by
  refine extendFirst_kept h halloc hrun ?_
  rintro ext hkept - - hrun
  obtain ⟨data, hpoke, heq⟩ := Option.bind_eq_some_iff.mp hrun
  obtain rfl := Option.some.inj heq
  have hin := le_of_poke (List.append_ne_nil_of_right_ne_nil _ (List.cons_ne_nil _ _)) hpoke
  rw [List.length_append, List.length_map, List.length_singleton] at hin
  exact hkept.write (length_poke hpoke) hin

theorem vsnprintf_eq_some (hrun : vsnprintf fb str = some fb') :
    ∃ data, fb' = { fb with data := data } ∧ (data.getD []).length = (cells fb).length ∧
      data.isSome = fb.data.isSome := by
  rw [vsnprintf] at hrun
  by_cases hsize : usub fb.len (uadd fb.skip fb.used) = 0
  · rw [if_pos hsize] at hrun
    cases hrun
    exact ⟨fb.data, rfl, rfl, rfl⟩
  · rw [if_neg hsize] at hrun
    obtain ⟨data, hpoke, heq⟩ := Option.bind_eq_some_iff.mp hrun
    obtain ⟨cs, hdata, -, rfl⟩ :=
      poke_eq_some (List.append_ne_nil_of_right_ne_nil _ (List.cons_ne_nil _ _)) hpoke
    refine ⟨_, (Option.some.inj heq).symm, length_poke hpoke, ?_⟩
    rw [hdata]
    rfl

theorem vsnprintf_kept (h : Kept full fb) (hrun : vsnprintf fb str = some fb') :
    Kept full fb' ∧ fb'.skip = fb.skip ∧ fb'.used = fb.used := by
  obtain ⟨data, rfl, hlen, hsome⟩ := vsnprintf_eq_some hrun
  have hstored := h.stored.write hlen fb.skip fb.used
  refine ⟨⟨⟨hstored.ranges, hstored.cells_le, fun hdata => ?_, fun hdata => ?_⟩,
    hstored.whole⟩, rfl, rfl⟩
  · exact (h.inside (hsome.symm.trans hdata)).trans_eq hlen.symm
  · refine h.empty ?_
    rw [← Option.isNone_iff_eq_none, ← Option.not_isSome, ← hsome, Option.not_isSome,
      Option.isNone_iff_eq_none]
    exact hdata

theorem countPrinted_kept {n : ℕ} {r : FBuf × ℤ} (h : Kept full fb)
    (hround : fb.skip + fb.used + n < UINT_RANGE) (hrun : countPrinted fb n = some r) :
    Kept full r.1 := by
  obtain ⟨fb', hterm, heq⟩ := Option.bind_eq_some_iff.mp hrun
  obtain rfl := Option.some.inj heq
  refine terminate_kept (h.stored.write rfl fb.skip _) ?_ hterm
  show fb.skip + uadd fb.used n < UINT_RANGE
  rw [uadd_of_lt (by omega)]
  omega

theorem fbufPrintf_kept {r : FBuf × ℤ} (h : Kept full fb) (halloc : full → EnoughMemory alloc)
    (hround : fb.skip + fb.used + str.length < UINT_RANGE)
    (hrun : fbufPrintf alloc fb str = some r) : Kept full r.1 := by
  refine extendFirst_kept h halloc hrun ?_
  rintro ext hkept hused hskip hrun
  obtain ⟨printed, hprint, hrun⟩ := Option.bind_eq_some_iff.mp hrun
  obtain ⟨hprinted, hskip', hused'⟩ := vsnprintf_kept hkept hprint
  by_cases hmore : usub printed.len (uadd printed.skip printed.used) ≤ str.length
  · rw [if_pos hmore] at hrun
    obtain ⟨ext', hext', hrun⟩ := Option.bind_eq_some_iff.mp hrun
    obtain ⟨hkept', hused'', hskip''⟩ := fbufExtend_kept hprinted halloc hext'
    by_cases hzero' : ext'.2 = 0
    · rw [if_pos hzero'] at hrun
      obtain ⟨fb', hterm, heq⟩ := Option.bind_eq_some_iff.mp hrun
      obtain rfl := Option.some.inj heq
      exact terminate_kept hkept'.stored (by omega) hterm
    · rw [if_neg hzero'] at hrun
      obtain ⟨again, hagain, hrun⟩ := Option.bind_eq_some_iff.mp hrun
      obtain ⟨hkept'', hskip₃, hused₃⟩ := vsnprintf_kept hkept' hagain
      exact countPrinted_kept hkept'' (by omega) hrun
  · rw [if_neg hmore] at hrun
    exact countPrinted_kept hprinted (by omega) hrun

theorem fbufNprintf_kept {max : ℤ} {r : FBuf × ℤ} (h : Kept full fb)
    (halloc : full → EnoughMemory alloc)
    (hround : fb.skip + fb.used + str.length < UINT_RANGE)
    (hrun : fbufNprintf alloc fb max str = some r) : Kept full r.1 := by
  refine extendFirst_kept h halloc hrun ?_
  rintro ext hkept hused hskip hrun
  obtain ⟨printed, hprint, hrun⟩ := Option.bind_eq_some_iff.mp hrun
  obtain ⟨hprinted, hskip', hused'⟩ := vsnprintf_kept hkept hprint
  exact countPrinted_kept hprinted (by omega) hrun

/-! ## Cutting the content -/

theorem fbufRemove_kept {n : ℕ} {r : FBuf × ℤ} (h : Kept full fb)
    (hrun : fbufRemove fb n = some r) : Kept full r.1 := by
  rw [fbufRemove] at hrun
  by_cases hall : fb.used ≤ n
  · rw [if_pos hall] at hrun
    obtain ⟨data, hpoke, heq⟩ := Option.bind_eq_some_iff.mp hrun
    obtain rfl := Option.some.inj heq
    exact h.write (length_poke hpoke) (le_of_poke (List.cons_ne_nil _ _) hpoke)
  rw [if_neg hall] at hrun
  by_cases hnil : n = 0
  · rw [if_neg (not_not.mpr hnil)] at hrun
    cases hrun
    exact h
  rw [if_pos hnil] at hrun
  dsimp only at hrun
  have hsum := h.used_lt
  have hinside := h.inside (h.isSome_of_used (by omega))
  have hskip : uadd fb.skip n = fb.skip + n := uadd_of_lt (by omega)
  have hused : usub fb.used n = fb.used - n := usub_of_le (by omega) (by omega)
  rw [hskip, hused] at hrun
  by_cases hmove : fb.len / 2 ≤ fb.skip + n
  · rw [if_pos hmove] at hrun
    obtain ⟨moved, hpeek, hrun⟩ := Option.bind_eq_some_iff.mp hrun
    obtain ⟨data, hpoke, heq⟩ := Option.bind_eq_some_iff.mp hrun
    obtain rfl := Option.some.inj heq
    refine h.write (length_poke hpoke) ?_
    omega
  · rw [if_neg hmove] at hrun
    cases hrun
    refine h.write rfl ?_
    omega

theorem fbufTrim_kept {r : FBuf × ℤ} (h : Kept full fb) (hrun : fbufTrim fb = some r) :
    Kept full r.1 := by
  obtain ⟨n, -, hrun⟩ := Option.bind_eq_some_iff.mp hrun
  obtain ⟨removed, hremove, heq⟩ := Option.bind_eq_some_iff.mp hrun
  obtain rfl := Option.some.inj heq
  have hkept := fbufRemove_kept h hremove
  exact hkept

theorem withoutTrailing_le {skip n : ℕ} : ∀ {k : ℕ},
    withoutTrailing data skip k = some n → n ≤ k := by
  intro k
  induction k with
  | zero =>
      intro hrun
      exact (Option.some.inj hrun).ge
  | succ k ih =>
      intro hrun
      obtain ⟨c, -, hrun⟩ := Option.bind_eq_some_iff.mp hrun
      by_cases hspace : isspace c = true
      · rw [if_pos hspace] at hrun
        exact (ih hrun).trans (Nat.le_succ k)
      · rw [if_neg hspace] at hrun
        exact (Option.some.inj hrun).ge

theorem terminate_shorter {used : ℕ} (h : Kept full fb) (hle : used ≤ fb.used)
    (hrun : terminate { fb with used := used } = some fb') : Kept full fb' := by
  refine terminate_kept (h.stored.write rfl fb.skip used) ?_ hrun
  show fb.skip + used < UINT_RANGE
  have := h.used_lt
  omega

theorem fbufRtrim_kept {r : FBuf × ℤ} (h : Kept full fb) (hrun : fbufRtrim fb = some r) :
    Kept full r.1 := by
  obtain ⟨used, hused, hrun⟩ := Option.bind_eq_some_iff.mp hrun
  obtain ⟨fb', hterm, heq⟩ := Option.bind_eq_some_iff.mp hrun
  obtain rfl := Option.some.inj heq
  exact terminate_shorter h (withoutTrailing_le hused) hterm

theorem fbufSetUsed_kept {n : ℕ} {r : FBuf × ℤ} (h : Kept full fb)
    (hrun : fbufSetUsed fb n = some r) : Kept full r.1 := by
  rw [fbufSetUsed] at hrun
  by_cases hless : n < fb.used
  · rw [if_pos hless] at hrun
    obtain ⟨fb', hterm, heq⟩ := Option.bind_eq_some_iff.mp hrun
    obtain rfl := Option.some.inj heq
    exact terminate_shorter h hless.le hterm
  · rw [if_neg hless] at hrun
    cases hrun
    exact h

/-! ## Limits and storage from outside -/

theorem Kept.with_sizes (h : Kept full fb) {maxlen minlen fast slow : ℕ}
    (hmax : maxlen < UINT_RANGE) (hmin : minlen < UINT_RANGE) (hfast : fast < UINT_RANGE)
    (hslow : slow < UINT_RANGE) :
    Kept full { fb with
      maxlen := maxlen, minlen := minlen, fastgrowsize := fast, slowgrowsize := slow } where
  ranges := ⟨h.ranges.len_lt, hmax, hmin, hfast, hslow⟩
  cells_le := h.cells_le
  inside := h.inside
  empty := h.empty
  whole := h.whole

theorem fbufMaxlen_kept {n : ℕ} {r : FBuf × ℕ} (h : Kept full fb)
    (hrun : fbufMaxlen alloc fb n = some r) : Kept full r.1 := by
  obtain ⟨limit, hlimit, hrun⟩ : ∃ limit < UINT_RANGE,
      (if limit < fb.len then truncateTo alloc { fb with maxlen := limit } fb.maxlen
        else some ({ fb with maxlen := limit }, fb.maxlen)) = some r := by
    rw [fbufMaxlen] at hrun
    by_cases hn : n < UINT_MAX
    · rw [if_pos hn] at hrun
      have hmax : UINT_MAX = UINT_RANGE - 1 := rfl
      exact ⟨n, by omega, hrun⟩
    · rw [if_neg hn] at hrun
      exact ⟨fb.maxlen, h.ranges.maxlen_lt, hrun⟩
  have hlimited : Kept full { fb with maxlen := limit } :=
    h.with_sizes hlimit h.ranges.minlen_lt h.ranges.fastgrowsize_lt h.ranges.slowgrowsize_lt
  by_cases hmore : limit < fb.len
  swap
  · rw [if_neg hmore] at hrun
    cases hrun
    exact hlimited
  rw [if_pos hmore] at hrun
  obtain ⟨shrunk, hshrink, hrun⟩ := Option.bind_eq_some_iff.mp hrun
  obtain ⟨hkept, -, hskip⟩ := fbufShrink_kept hlimited hshrink
  dsimp only at hrun
  by_cases hmemory : alloc (uadd shrunk.1.maxlen 1) = true
  swap
  · rw [if_neg hmemory] at hrun
    cases hrun
    exact hkept
  rw [if_pos hmemory] at hrun
  obtain ⟨data, hpoke, heq⟩ := Option.bind_eq_some_iff.mp hrun
  obtain rfl := Option.some.inj heq
  have hin := le_of_poke (List.cons_ne_nil _ _) hpoke
  have hlength := (length_poke hpoke).trans (length_resize _ _)
  rw [length_resize, List.length_singleton] at hin
  have hranges := hkept.ranges
  have hstored : Stored full { shrunk.1 with
      data := data
      len := uadd shrunk.1.maxlen 1
      used := if shrunk.1.maxlen ≤ shrunk.1.used then shrunk.1.maxlen else shrunk.1.used } :=
    ⟨⟨Nat.mod_lt _ (Nat.two_pow_pos 32), hranges.maxlen_lt, hranges.minlen_lt,
      hranges.fastgrowsize_lt, hranges.slowgrowsize_lt⟩, hlength.le, fun _ => hlength⟩
  refine hstored.kept (lt_of_lt_of_eq ?_ hlength.symm)
  dsimp only
  split
  · omega
  · omega

theorem fbufMinlen_kept {n : ℕ} (h : Kept full fb) (hn : n < UINT_RANGE)
    (hfits : fb.used < n → n < fb.len → alloc n = true → fb.skip + fb.used < n) :
    Kept full (fbufMinlen alloc fb n).1 := by
  have hranges := h.ranges
  have hset : Kept full { fb with minlen := n } :=
    h.with_sizes hranges.maxlen_lt hn hranges.fastgrowsize_lt hranges.slowgrowsize_lt
  rw [fbufMinlen]
  by_cases hzero : n = 0
  · rw [if_neg (not_not.mpr hzero)]
    exact h
  rw [if_pos hzero]
  dsimp only
  by_cases hsmall : fb.used < n ∧ n < fb.len
  swap
  · rw [if_neg hsmall]
    exact hset
  rw [if_pos hsmall]
  by_cases hmemory : alloc n = true
  swap
  · rw [if_neg hmemory]
    exact hset
  rw [if_pos hmemory]
  have hlength := length_resize fb.data n
  have hstored : Stored full { fb with data := resize fb.data n, len := n, minlen := n } :=
    ⟨⟨hn, hranges.maxlen_lt, hn, hranges.fastgrowsize_lt, hranges.slowgrowsize_lt⟩,
      hlength.le, fun _ => hlength⟩
  exact hstored.kept ((hfits hsmall.1 hsmall.2 hmemory).trans_eq hlength.symm)

theorem fbufAttach_kept {cs : List (Option UInt8)} {used : ℤ} {r : FBuf × ℕ} (h : Kept full fb)
    (hlen : cs.length ≤ INT_MAX) (hused : used < cs.length)
    (hrun : fbufAttach alloc fb (some cs) cs.length used = some r) : Kept full r.1 := by
  have hrange : UINT_RANGE = 2 ^ 32 := rfl
  have hmax : INT_MAX = 2 ^ 31 - 1 := rfl
  have hranges := h.ranges
  rw [fbufAttach, if_pos hused, attachData] at hrun
  by_cases hneg : used < 0
  · rw [if_pos hneg] at hrun
    cases hrun
  rw [if_neg hneg] at hrun
  obtain ⟨n, rfl⟩ := Int.eq_ofNat_of_zero_le (Int.not_lt.mp hneg)
  obtain ⟨data, hpoke, heq⟩ := Option.bind_eq_some_iff.mp hrun
  obtain rfl := Option.some.inj heq
  have hlength := length_poke hpoke
  have hlen' : toUInt cs.length = cs.length := toUInt_natCast (by omega)
  have hn : toUInt n = n := toUInt_natCast (by omega)
  have hstored : Stored full { fb with
      data := data, len := toUInt cs.length, used := toUInt n, skip := 0 } := by
    rw [hlen']
    exact ⟨⟨(by omega : cs.length < UINT_RANGE), hranges.maxlen_lt, hranges.minlen_lt,
      hranges.fastgrowsize_lt, hranges.slowgrowsize_lt⟩, hlength.le, fun _ => hlength⟩
  refine hstored.kept (lt_of_lt_of_eq ?_ hlength.symm)
  show 0 + toUInt n < cs.length
  omega

theorem fbufDetach_kept {r : FBuf × ℕ × Option (Storage UInt8 × ℤ)} (h : Kept full fb)
    (hrun : fbufDetach alloc fb = some r) : Kept full r.1 := by
  rw [fbufDetach] at hrun
  by_cases hused : fb.used = 0
  · rw [if_pos hused] at hrun
    cases hrun
    exact h
  rw [if_neg hused] at hrun
  obtain ⟨fb', hshrink, heq⟩ := Option.bind_eq_some_iff.mp hrun
  obtain rfl := Option.some.inj heq
  have hkept : Kept full fb' := by
    by_cases hskip : fb.skip = 0
    · rw [if_neg (not_not.mpr hskip)] at hshrink
      cases hshrink
      exact h
    · rw [if_pos hskip] at hshrink
      obtain ⟨shrunk, hshrunk, rfl⟩ := Option.map_eq_some_iff.mp hshrink
      exact (fbufShrink_kept h hshrunk).1
  have hranges := hkept.ranges
  exact ⟨⟨⟨Nat.two_pow_pos 32, hranges.maxlen_lt, hranges.minlen_lt, hranges.fastgrowsize_lt,
    hranges.slowgrowsize_lt⟩, le_rfl, fun hdata => absurd hdata Bool.false_ne_true,
    fun _ => ⟨rfl, rfl⟩⟩, fun _ => rfl⟩

/-! ## Reading lines -/

theorem used_of_endsIn {c : UInt8} (hrun : endsIn fb c = some true) : fb.used ≠ 0 := by
  intro hzero
  rw [endsIn, if_pos hzero] at hrun
  cases hrun

/-- As long as the length is that of the storage, a byte that is read leaves one behind it. -/
theorem readUntilNewline_kept : ∀ (input : List UInt8) {fb : FBuf}
    {r : FBuf × Bool × List UInt8}, Kept full fb → (cells fb).length = fb.len →
    (full → EnoughMemory alloc) → fb.skip + fb.used + input.length + 1 < UINT_RANGE →
    readUntilNewline alloc fb input = some r →
    Kept full r.1 ∧ (r.2.1 = true → r.1.used ≠ 0) := by
  intro input
  induction input with
  | nil =>
      intro fb r h _ halloc _ hrun
      obtain ⟨last, hends, hrun⟩ := Option.bind_eq_some_iff.mp hrun
      cases last with
      | true =>
          cases hrun
          exact ⟨h, fun _ => used_of_endsIn hends⟩
      | false =>
          obtain ⟨ext, hext, heq⟩ := Option.bind_eq_some_iff.mp hrun
          cases heq
          exact ⟨(fbufExtend_kept h halloc hext).1, fun hfalse => absurd hfalse Bool.false_ne_true⟩
  | cons c input ih =>
      intro fb r h hwhole halloc hround hrun
      obtain ⟨last, hends, hrun⟩ := Option.bind_eq_some_iff.mp hrun
      cases last with
      | true =>
          cases hrun
          exact ⟨h, fun _ => used_of_endsIn hends⟩
      | false =>
          obtain ⟨ext, hext, hrun⟩ := Option.bind_eq_some_iff.mp hrun
          obtain ⟨hkept, hused, hskip⟩ := fbufExtend_kept h halloc hext
          by_cases hzero : ext.2 = 0
          · rw [if_pos hzero] at hrun
            cases hrun
            exact ⟨hkept, fun hfalse => absurd hfalse Bool.false_ne_true⟩
          rw [if_neg hzero] at hrun
          obtain ⟨data, hpoke, hrun⟩ := Option.bind_eq_some_iff.mp hrun
          rw [List.length_cons] at hround
          have hcases := fbufExtend_cases h.toBacked hext
          rw [uadd_of_lt (by omega : fb.used + 1 < UINT_RANGE),
            uadd_of_lt (by omega : fb.used + 1 + 1 < UINT_RANGE)] at hcases
          have hroom := hcases.room_of_ne h.toBacked hzero
          have hsound := (hcases.sound_of_ne ⟨h.toBacked, hwhole⟩ hzero).whole
          have hadd : uadd ext.1.used 1 = ext.1.used + 1 := uadd_of_lt (by omega)
          have hlength := length_poke hpoke
          rw [hadd] at hrun
          refine ih (hkept.write hlength ?_) (hlength.trans hsound) halloc ?_ hrun
          · rw [hsound]
            omega
          · dsimp only
            omega

theorem dropLast_kept (h : Kept full fb) (hused : fb.used ≠ 0)
    (hrun : dropLast fb = some fb') : Kept full fb' := by
  have hsum := h.used_lt
  refine terminate_shorter h ?_ hrun
  rw [usub_of_le (by omega) (by omega)]
  exact Nat.sub_le _ _

theorem readLine_kept {input : List UInt8} {r : FBuf × ℤ × List UInt8} (h : Kept full fb)
    (hwhole : (cells fb).length = fb.len) (halloc : full → EnoughMemory alloc)
    (hround : fb.skip + fb.used + input.length + 1 < UINT_RANGE)
    (hrun : readLine alloc fb input = some r) : Kept full r.1 := by
  obtain ⟨read, hread, hrun⟩ := Option.bind_eq_some_iff.mp hrun
  obtain ⟨hkept, hused⟩ := readUntilNewline_kept input h hwhole halloc hround hread
  cases hline : read.2.1 with
  | false =>
      rw [hline] at hrun
      cases hrun
      exact hkept
  | true =>
      rw [hline] at hrun
      obtain ⟨dropped, hdrop, hrun⟩ := Option.bind_eq_some_iff.mp hrun
      have hdropped := dropLast_kept hkept (hused hline) hdrop
      obtain ⟨ends, hends, hrun⟩ := Option.bind_eq_some_iff.mp hrun
      obtain ⟨fb', hlast, heq⟩ := Option.bind_eq_some_iff.mp hrun
      obtain rfl := Option.some.inj heq
      cases ends with
      | false =>
          cases hlast
          exact hdropped
      | true => exact dropLast_kept hdropped (used_of_endsIn hends) hlast

theorem readBytes_kept {explen : ℕ} {got : Option (List UInt8)} {r : FBuf × ℤ}
    (h : Kept full fb) (halloc : full → EnoughMemory alloc)
    (hrun : readBytes alloc fb explen got = some r) : Kept full r.1 := by
  refine extendFirst_kept h halloc hrun ?_
  rintro ext hkept - - hrun
  obtain ⟨data, hpoke, hrun⟩ := Option.bind_eq_some_iff.mp hrun
  obtain ⟨fb', hterm, heq⟩ := Option.bind_eq_some_iff.mp hrun
  obtain rfl := Option.some.inj heq
  have hsum := hkept.used_lt
  have hcount : ∀ bytes : List UInt8,
      poke ext.1.data (uadd ext.1.skip ext.1.used) (bytes.map some) = some data →
      ext.1.skip + uadd ext.1.used bytes.length < UINT_RANGE := by
    intro bytes hpoke
    by_cases hnil : bytes = []
    · rw [hnil, List.length_nil, uadd_of_lt (by omega)]
      omega
    · have hin := le_of_poke (fun hmap => hnil (List.map_eq_nil_iff.mp hmap)) hpoke
      have hlt := hkept.cells_lt
      rw [cells] at hlt
      rw [uadd_of_lt (by omega : ext.1.skip + ext.1.used < UINT_RANGE), List.length_map] at hin
      rw [uadd_of_lt (by omega)]
      omega
  have hbound := hcount _ hpoke
  have hused : ∀ (n : ℤ) (used : ℕ), ext.1.skip + used < UINT_RANGE →
      ext.1.skip + (if 0 < n then used else ext.1.used) < UINT_RANGE := by
    intro n used hlt
    split
    · exact hlt
    · omega
  exact terminate_kept (hkept.stored.write (length_poke hpoke) _ _) (hused _ _ hbound) hterm

theorem fbufDestroy_kept (h : Kept full fb) : Kept full (fbufDestroy fb) where
  ranges := ⟨Nat.two_pow_pos 32, h.ranges.maxlen_lt, h.ranges.minlen_lt,
    h.ranges.fastgrowsize_lt, h.ranges.slowgrowsize_lt⟩
  cells_le := le_rfl
  inside := fun hsome => absurd hsome Bool.false_ne_true
  empty := fun _ => ⟨rfl, rfl⟩
  whole := fun _ => rfl

/-! ## Runs -/

/-- The calls on one buffer. -/
inductive Call where
  | extend (newlen : ℕ)
  | shrink
  | clear
  | addBinary (bytes : List (Option UInt8))
  | add (str : List UInt8)
  | prependBinary (bytes : List (Option UInt8))
  | set (str : List UInt8)
  | printf (str : List UInt8)
  | nprintf (max : ℤ) (str : List UInt8)
  | remove (len : ℕ)
  | trim
  | rtrim
  | setUsed (newused : ℕ)
  | maxlen (len : ℕ)
  | minlen (len : ℕ)
  | fastgrowsize (size : ℕ)
  | slowgrowsize (size : ℕ)
  | attach (buf : Storage UInt8) (len used : ℤ)
  | detach
  | readLn (fd : List UInt8)
  | freadLn (file : List UInt8)
  | read (explen : ℕ) (fd : Option (List UInt8))
  | fread (explen : ℕ) (file : List UInt8)
  | destroy

/-- What a call leaves. -/
def perform (alloc : ℕ → Bool) (fb : FBuf) : Call → Option FBuf
  | .extend newlen => (fbufExtend alloc fb newlen).map Prod.fst
  | .shrink => (fbufShrink alloc fb).map Prod.fst
  | .clear => fbufClear fb
  | .addBinary bytes => (fbufAddBinary alloc fb bytes).map Prod.fst
  | .add str => (fbufAdd alloc fb str).map Prod.fst
  | .prependBinary bytes => (fbufPrependBinary alloc fb bytes).map Prod.fst
  | .set str => (fbufSet alloc fb str).map Prod.fst
  | .printf str => (fbufPrintf alloc fb str).map Prod.fst
  | .nprintf max str => (fbufNprintf alloc fb max str).map Prod.fst
  | .remove len => (fbufRemove fb len).map Prod.fst
  | .trim => (fbufTrim fb).map Prod.fst
  | .rtrim => (fbufRtrim fb).map Prod.fst
  | .setUsed newused => (fbufSetUsed fb newused).map Prod.fst
  | .maxlen len => (fbufMaxlen alloc fb len).map Prod.fst
  | .minlen len => some (fbufMinlen alloc fb len).1
  | .fastgrowsize size => some (fbufFastgrowsize fb size).1
  | .slowgrowsize size => some (fbufSlowgrowsize fb size).1
  | .attach buf len used => (fbufAttach alloc fb buf len used).map Prod.fst
  | .detach => (fbufDetach alloc fb).map Prod.fst
  | .readLn fd => (fbufReadLn alloc fb fd).map Prod.fst
  | .freadLn file => (fbufFreadLn alloc fb file).map Prod.fst
  | .read explen fd => (fbufRead alloc fb explen fd).map Prod.fst
  | .fread explen file => (fbufFread alloc fb explen file).map Prod.fst
  | .destroy => some (fbufDestroy fb)

/-- The calls that do not put the content outside the storage: sizes are `unsigned int`s, the
number of bytes does not go round, a new least length does not cut the content, an attached block
has the length that is given and is not full, and a line is read into a storage of the recorded
length. -/
def Keeps (alloc : ℕ → Bool) (fb : FBuf) : Call → Prop
  | .printf str => fb.skip + fb.used + str.length < UINT_RANGE
  | .nprintf _ str => fb.skip + fb.used + str.length < UINT_RANGE
  | .minlen len => len < UINT_RANGE ∧
      (fb.used < len → len < fb.len → alloc len = true → fb.skip + fb.used < len)
  | .fastgrowsize size => size < UINT_RANGE
  | .slowgrowsize size => size < UINT_RANGE
  | .attach buf len used => ∃ cs, buf = some cs ∧ len = cs.length ∧ used < len ∧ len ≤ INT_MAX
  | .readLn fd => (cells fb).length = fb.len ∧ fb.skip + fb.used + fd.length + 1 < UINT_RANGE
  | .freadLn file =>
      (cells fb).length = fb.len ∧ fb.skip + fb.used + file.length + 1 < UINT_RANGE
  | _ => True

/-- Every such call leaves the content in the storage. -/
theorem perform_kept {call : Call} (h : Kept full fb) (halloc : full → EnoughMemory alloc)
    (hkeeps : Keeps alloc fb call) (hrun : perform alloc fb call = some fb') :
    Kept full fb' := by
  have hranges := h.ranges
  cases call with
  | extend newlen =>
      obtain ⟨r, hr, rfl⟩ := Option.map_eq_some_iff.mp hrun
      exact (fbufExtend_kept h halloc hr).1
  | shrink =>
      obtain ⟨r, hr, rfl⟩ := Option.map_eq_some_iff.mp hrun
      exact (fbufShrink_kept h hr).1
  | clear => exact (fbufClear_kept h hrun).1
  | addBinary bytes =>
      obtain ⟨r, hr, rfl⟩ := Option.map_eq_some_iff.mp hrun
      exact fbufAddBinary_kept h halloc hr
  | add str =>
      obtain ⟨r, hr, rfl⟩ := Option.map_eq_some_iff.mp hrun
      exact fbufAdd_kept h halloc hr
  | prependBinary bytes =>
      obtain ⟨r, hr, rfl⟩ := Option.map_eq_some_iff.mp hrun
      exact fbufPrependBinary_kept h halloc hr
  | set str =>
      obtain ⟨r, hr, rfl⟩ := Option.map_eq_some_iff.mp hrun
      exact fbufSet_kept h halloc hr
  | printf str =>
      obtain ⟨r, hr, rfl⟩ := Option.map_eq_some_iff.mp hrun
      exact fbufPrintf_kept h halloc hkeeps hr
  | nprintf max str =>
      obtain ⟨r, hr, rfl⟩ := Option.map_eq_some_iff.mp hrun
      exact fbufNprintf_kept h halloc hkeeps hr
  | remove len =>
      obtain ⟨r, hr, rfl⟩ := Option.map_eq_some_iff.mp hrun
      exact fbufRemove_kept h hr
  | trim =>
      obtain ⟨r, hr, rfl⟩ := Option.map_eq_some_iff.mp hrun
      exact fbufTrim_kept h hr
  | rtrim =>
      obtain ⟨r, hr, rfl⟩ := Option.map_eq_some_iff.mp hrun
      exact fbufRtrim_kept h hr
  | setUsed newused =>
      obtain ⟨r, hr, rfl⟩ := Option.map_eq_some_iff.mp hrun
      exact fbufSetUsed_kept h hr
  | maxlen len =>
      obtain ⟨r, hr, rfl⟩ := Option.map_eq_some_iff.mp hrun
      exact fbufMaxlen_kept h hr
  | minlen len =>
      cases hrun
      exact fbufMinlen_kept h hkeeps.1 hkeeps.2
  | fastgrowsize size =>
      cases hrun
      rw [fbufFastgrowsize]
      dsimp only
      split
      · exact h.with_sizes hranges.maxlen_lt hranges.minlen_lt hkeeps hranges.slowgrowsize_lt
      · exact h
  | slowgrowsize size =>
      cases hrun
      rw [fbufSlowgrowsize]
      dsimp only
      split
      · exact h.with_sizes hranges.maxlen_lt hranges.minlen_lt hranges.fastgrowsize_lt hkeeps
      · exact h
  | attach buf len used =>
      obtain ⟨r, hr, rfl⟩ := Option.map_eq_some_iff.mp hrun
      obtain ⟨cs, rfl, rfl, hused, hlen⟩ := hkeeps
      exact fbufAttach_kept h (Int.ofNat_le.mp hlen) hused hr
  | detach =>
      obtain ⟨r, hr, rfl⟩ := Option.map_eq_some_iff.mp hrun
      exact fbufDetach_kept h hr
  | readLn fd =>
      obtain ⟨r, hr, rfl⟩ := Option.map_eq_some_iff.mp hrun
      exact readLine_kept h hkeeps.1 halloc hkeeps.2 hr
  | freadLn file =>
      obtain ⟨r, hr, rfl⟩ := Option.map_eq_some_iff.mp hrun
      exact readLine_kept h hkeeps.1 halloc hkeeps.2 hr
  | read explen fd =>
      obtain ⟨r, hr, rfl⟩ := Option.map_eq_some_iff.mp hrun
      exact readBytes_kept h halloc hr
  | fread explen file =>
      obtain ⟨r, hr, rfl⟩ := Option.map_eq_some_iff.mp hrun
      exact readBytes_kept h halloc hr
  | destroy =>
      cases hrun
      exact fbufDestroy_kept h

/-- The buffers that such calls lead to, with one of these allocators in each.  The buffers of a
call on two are different ones. -/
inductive Reachable (memory : (ℕ → Bool) → Prop) : FBuf → Prop where
  | create {maxlen : ℕ} (hmax : maxlen < UINT_RANGE) : Reachable memory (fbufCreate maxlen)
  | call {fb fb' : FBuf} (h : Reachable memory fb) (alloc : ℕ → Bool) (call : Call)
      (halloc : memory alloc) (hkeeps : Keeps alloc fb call)
      (hrun : perform alloc fb call = some fb') : Reachable memory fb'
  | concat {dst src : FBuf} {alloc : ℕ → Bool} {r : FBuf × ℤ} (hdst : Reachable memory dst)
      (hsrc : Reachable memory src) (halloc : memory alloc)
      (hrun : fbufConcat alloc dst src = some r) : Reachable memory r.1
  | copy {src dst : FBuf} {alloc : ℕ → Bool} {r : FBuf × ℤ} (hsrc : Reachable memory src)
      (hdst : Reachable memory dst) (halloc : memory alloc)
      (hrun : fbufCopy alloc src dst = some r) : Reachable memory r.1
  | duplicate {src fb : FBuf} {alloc : ℕ → Bool} (hsrc : Reachable memory src)
      (halloc : memory alloc) (hrun : fbufDuplicate alloc src = some fb) : Reachable memory fb

theorem kept_create {maxlen : ℕ} (hmax : maxlen < UINT_RANGE) : Kept full (fbufCreate maxlen) :=
  ⟨(sound_create hmax).toBacked, fun _ => rfl⟩

theorem Reachable.kept {memory : (ℕ → Bool) → Prop} (h : Reachable memory fb) :
    Kept (∀ alloc, memory alloc → EnoughMemory alloc) fb := by
  induction h with
  | create hmax => exact kept_create hmax
  | call _ _ _ halloc hkeeps hrun ih => exact perform_kept ih (fun hfull => hfull _ halloc) hkeeps hrun
  | concat _ _ halloc hrun ihdst ihsrc =>
      exact fbufConcat_kept ihdst ihsrc.toBacked (fun hfull => hfull _ halloc) hrun
  | copy _ _ halloc hrun ihsrc ihdst =>
      exact fbufCopy_kept ihdst ihsrc.toBacked (fun hfull => hfull _ halloc) hrun
  | @duplicate src fb alloc hsrc halloc hrun ih =>
      have hnew : Kept (∀ alloc, memory alloc → EnoughMemory alloc) (fbufCreate src.maxlen) :=
        kept_create ih.ranges.maxlen_lt
      rw [fbufDuplicate] at hrun
      by_cases hused : src.used = 0
      · rw [if_neg (not_not.mpr hused)] at hrun
        cases hrun
        exact hnew
      · rw [if_pos hused] at hrun
        obtain ⟨bytes, -, hrun⟩ := Option.bind_eq_some_iff.mp hrun
        obtain ⟨r, hadd, heq⟩ := Option.bind_eq_some_iff.mp hrun
        obtain rfl := Option.some.inj heq
        exact fbufAddBinary_kept hnew (fun hfull => hfull _ halloc) hadd

theorem Reachable.backed {memory : (ℕ → Bool) → Prop} (h : Reachable memory fb) : Backed fb :=
  h.kept.toBacked

theorem Reachable.sound (h : Reachable EnoughMemory fb) : Sound fb :=
  ⟨h.backed, h.kept.whole fun _ halloc => halloc⟩

end FBuf
end LibHL
