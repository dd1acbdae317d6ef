import LibHL.FBuf.Reachable

/-!
# Putting bytes in front

`fbuf_prepend_binary` has the bytes in front of the content if enough were removed there.
Otherwise it extends the buffer and moves the content with the byte behind it.  A storage that
is allocated anew does not have that byte, since `fbuf_extend` copies the content alone.
-/

namespace LibHL
namespace FBuf

open Storage Circular

variable {fb fb' : FBuf} {cs bytes : List (Option UInt8)} {off used : ℕ}

/-- The bytes are in front of the content, their number is returned, and there is a terminator
behind the content; or nothing has changed. -/
def Prepends (fb : FBuf) (bytes : List (Option UInt8)) : Prop :=
  ∃ fb' r, fbufPrependBinary (fun _ => true) fb bytes = some (fb', r) ∧
    ((r = bytes.length ∧ fb'.used = bytes.length + fb.used ∧
        contents fb' = bytes ++ contents fb ∧ fb'.skip + fb'.used < fb'.len ∧
        behind fb' = some (some 0)) ∨
      (r = -1 ∧ SameContent fb fb' ∧ behind fb' = behind fb))

/-- The bytes fit in front of the content, which is terminated; or their number does not go
round, and the length has room and the content is terminated (a compaction terminates an empty
content), or the limit refuses, or the storage grows with the terminator in it. -/
def PrependFits (fb : FBuf) (n : ℕ) : Prop :=
  let size := fb.used + n + 1
  if (n : ℤ) ≤ toInt fb.skip then
    Terminated fb
  else
    size < UINT_RANGE ∧
      if size ≤ fb.len then
        Terminated fb ∨ fb.used = 0 ∧ fb.len < fb.skip + size
      else
        Refuses fb size ∨ fb.skip = 0 ∧ Terminated fb ∧ GrowsTo fb size

/-! ## Writing in front -/

theorem written_in_front {n : ℕ} (hfit : off + bytes.length ≤ cs.length) :
    ((overwrite cs off bytes).drop off).take (bytes.length + n) =
      bytes ++ (cs.drop (off + bytes.length)).take n := by
  rw [drop_overwrite_self (by omega), List.take_length_add_append]

theorem moved_behind (hfit : off + bytes.length + (used + 1) ≤ cs.length) :
    let moved := overwrite cs (off + bytes.length) ((cs.drop off).take (used + 1))
    (overwrite moved off bytes).length = cs.length ∧
      ((overwrite moved off bytes).drop off).take (bytes.length + used) =
        bytes ++ (cs.drop off).take used ∧
      (overwrite moved off bytes)[off + (bytes.length + used)]? = cs[off + used]? := by
  intro moved
  have hpart : ((cs.drop off).take (used + 1)).length = used + 1 := by
    rw [List.length_take, List.length_drop]
    omega
  have hroom : off + bytes.length + ((cs.drop off).take (used + 1)).length ≤ cs.length := by
    omega
  have hmoved : moved.length = cs.length := length_overwrite hroom
  have hroom' : off + bytes.length ≤ moved.length := by omega
  refine ⟨(length_overwrite hroom').trans hmoved, ?_, ?_⟩
  · rw [written_in_front hroom', drop_overwrite_self (by omega),
      List.take_append_of_le_length (by omega), List.take_take,
      Nat.min_eq_left (Nat.le_succ used)]
  · rw [getElem?_overwrite hroom', if_neg (by omega), getElem?_overwrite hroom, hpart,
      if_pos (by omega), ← Nat.add_assoc, Nat.add_sub_cancel_left,
      List.getElem?_take_of_lt (Nat.lt_succ_self used), List.getElem?_drop]

/-- Enough bytes were removed in front of the content. -/
theorem prependBinary_in_front (alloc : ℕ → Bool) (h : Sound fb) (hne : bytes.length ≠ 0)
    (hfront : (bytes.length : ℤ) ≤ toInt fb.skip) :
    ∃ fb', fbufPrependBinary alloc fb bytes = some (fb', (bytes.length : ℤ)) ∧
      fb'.used = bytes.length + fb.used ∧ contents fb' = bytes ++ contents fb ∧
      fb'.skip + fb'.used < fb'.len ∧ behind fb' = behind fb := by
  have hskip : bytes.length ≤ fb.skip := by
    have := toInt_le_self fb.skip
    omega
  have hsmall := h.used_lt
  rcases h.storage with ⟨-, -, hzero⟩ | ⟨cs, hdata, hcells, hinside, hlt⟩
  · omega
  have hcovers := h.covers (by rw [hdata]; rfl)
  have hfit : fb.skip - bytes.length + bytes.length ≤ cs.length := by omega
  have hlength := length_overwrite hfit
  have hsub : usub fb.skip bytes.length = fb.skip - bytes.length :=
    usub_of_le hskip (by omega)
  have hadd : uadd fb.used bytes.length = bytes.length + fb.used := by
    rw [uadd_of_lt (by omega), Nat.add_comm]
  have hrun : fbufPrependBinary alloc fb bytes =
      some ({ fb with
        data := some (overwrite cs (fb.skip - bytes.length) bytes)
        skip := fb.skip - bytes.length
        used := bytes.length + fb.used }, (bytes.length : ℤ)) := by
    rw [fbufPrependBinary]
    dsimp only
    rw [if_neg hne, if_pos hfront, hdata, poke_of_le hfit, hsub, hadd]
    rfl
  refine ⟨_, hrun, rfl, ?_, ?_, ?_⟩
  · show ((overwrite cs (fb.skip - bytes.length) bytes).drop (fb.skip - bytes.length)).take
      (bytes.length + fb.used) = _
    rw [written_in_front hfit, Nat.sub_add_cancel hskip, contents, hcells]
  · show fb.skip - bytes.length + (bytes.length + fb.used) < fb.len
    omega
  · show (overwrite cs (fb.skip - bytes.length) bytes)[fb.skip - bytes.length +
      (bytes.length + fb.used)]? = _
    rw [getElem?_overwrite hfit, if_neg (by omega), behind, hcells]
    congr 1
    omega

/-- The buffer is extended, and the content moved in it. -/
theorem prependBinary_behind {alloc : ℕ → Bool} {r : ℕ} (h : Sound fb) (hne : bytes.length ≠ 0)
    (hfront : ¬ (bytes.length : ℤ) ≤ toInt fb.skip)
    (hround : fb.used + bytes.length + 1 < UINT_RANGE)
    (hext : fbufExtend alloc fb (uadd fb.used bytes.length) = some (fb', r)) (hr : r ≠ 0) :
    ∃ fb₂, fbufPrependBinary alloc fb bytes = some (fb₂, (bytes.length : ℤ)) ∧
      fb₂.used = bytes.length + fb.used ∧ contents fb₂ = bytes ++ contents fb ∧
      fb₂.skip + fb₂.used < fb₂.len ∧ behind fb₂ = behind fb' := by
  have hcases := fbufExtend_cases h.toBacked hext
  rw [uadd_of_lt (by omega : fb.used + bytes.length < UINT_RANGE), uadd_of_lt hround] at hcases
  have hroom := hcases.room_of_ne h.toBacked hr
  have hsound := hcases.sound_of_ne h hr
  obtain ⟨hused, hcontents⟩ := hcases.sameContent
  obtain ⟨cs, hdata, hcells, hlen⟩ := hsound.exists_cells (by omega)
  have hlt := hsound.ranges.len_lt
  have hmore : fb'.skip + bytes.length + (fb'.used + 1) ≤ cs.length := by omega
  obtain ⟨hlength, hmoved, hend⟩ := moved_behind hmore
  have hpart : ((cs.drop fb'.skip).take (fb'.used + 1)).length = fb'.used + 1 := by
    rw [List.length_take, List.length_drop]
    omega
  have hfit : fb'.skip + bytes.length + ((cs.drop fb'.skip).take (fb'.used + 1)).length ≤
      cs.length := by omega
  have hfit' : fb'.skip + bytes.length ≤ (overwrite cs (fb'.skip + bytes.length)
      ((cs.drop fb'.skip).take (fb'.used + 1))).length := by
    rw [length_overwrite hfit]
    omega
  have hadd : uadd fb'.used bytes.length = bytes.length + fb'.used := by
    rw [uadd_of_lt (by omega), Nat.add_comm]
  have hrun : fbufPrependBinary alloc fb bytes = some ({ fb' with
      data := some (overwrite (overwrite cs (fb'.skip + bytes.length)
        ((cs.drop fb'.skip).take (fb'.used + 1))) fb'.skip bytes)
      used := bytes.length + fb'.used }, (bytes.length : ℤ)) := by
    rw [fbufPrependBinary]
    dsimp only
    rw [if_neg hne, if_neg hfront, hext]
    simp only [Option.bind_eq_bind, Option.bind_some]
    rw [if_neg hr, uadd_of_lt (by omega : fb'.used + 1 < UINT_RANGE), hadd, hdata,
      peek_of_le (by omega)]
    simp only [Option.bind_some, poke_of_le hfit, poke_of_le hfit']
  refine ⟨_, hrun, by rw [hused], ?_, ?_, ?_⟩
  · refine hmoved.trans ?_
    rw [← hcontents, contents, hcells]
  · show fb'.skip + (bytes.length + fb'.used) < fb'.len
    omega
  · refine hend.trans ?_
    rw [behind, hcells]

/-- If the number of bytes goes round, then the content is moved out of the storage. -/
theorem prependBinary_round {alloc : ℕ → Bool} (h : Sound fb) (hlen : bytes.length ≤ INT_MAX)
    (hfront : ¬ (bytes.length : ℤ) ≤ toInt fb.skip)
    (hround : UINT_RANGE ≤ fb.used + bytes.length + 1) (hne : bytes.length ≠ 0) :
    fbufPrependBinary alloc fb bytes = none := by
  have hrange : UINT_RANGE = 2 ^ 32 := rfl
  have hmax : INT_MAX = 2 ^ 31 - 1 := rfl
  have hsmall := h.used_lt
  have hlt := h.ranges.len_lt
  have hused := h.used_lt_len (by omega)
  have hN : uadd (uadd fb.used bytes.length) 1 = fb.used + bytes.length + 1 - UINT_RANGE := by
    rw [uadd, uadd, Nat.mod_add_mod, Nat.mod_eq_sub_mod hround, Nat.mod_eq_of_lt]
    omega
  rw [fbufPrependBinary]
  dsimp only
  rw [if_neg hne, if_neg hfront]
  cases hext : fbufExtend alloc fb (uadd fb.used bytes.length) with
  | none => rfl
  | some p =>
      obtain ⟨fb', r⟩ := p
      have hcases := fbufExtend_cases h.toBacked hext
      rw [hN] at hcases
      have hsame := hcases.sameContent.used
      have hsound : Sound fb' ∧ r ≠ 0 := by
        have hr : r ≠ 0 := by
          cases hcases with
          | room hroom => omega
          | compacted hmore hfit hcells hcontents hbehind => omega
          | refused hmore hover => omega
          | failed hmore hfits hrequests halloc => omega
          | reallocated hmore hfits hrequests halloc hused' hcells hcontents hbehind => omega
        exact ⟨hcases.sound_of_ne h hr, hr⟩
      obtain ⟨hsound, hr⟩ := hsound
      have hlt' := hsound.ranges.len_lt
      have hused' := hsound.used_lt_len (by omega)
      obtain ⟨cs, hdata, -, hcs⟩ := hsound.exists_cells (by omega)
      have hin := hsound.le
      simp only [Option.bind_eq_bind, Option.bind_some]
      rw [if_neg hr, uadd_of_lt (by omega : fb'.used + 1 < UINT_RANGE), hdata, Option.bind_eq_none_iff]
      intro moved hmoved
      obtain ⟨hcount, -⟩ := peek_eq_some hmoved
      rw [poke, if_neg (by omega), Option.bind_some, if_neg (by omega)]
      rfl

/-! ## When the bytes are put in front -/

/-- All depends on the byte behind the content of the extended buffer. -/
theorem prepends_iff_of_extend {r : ℕ} (h : Sound fb) (hne : bytes.length ≠ 0)
    (hfront : ¬ (bytes.length : ℤ) ≤ toInt fb.skip)
    (hround : fb.used + bytes.length + 1 < UINT_RANGE)
    (hext : fbufExtend (fun _ => true) fb (uadd fb.used bytes.length) = some (fb', r))
    (hr : r ≠ 0) : Prepends fb bytes ↔ behind fb' = some (some 0) := by
  obtain ⟨fb₂, hrun, hused, hcontents, hroom, hbehind⟩ :=
    prependBinary_behind h hne hfront hround hext hr
  rw [Prepends, hrun, ← hbehind]
  constructor
  · rintro ⟨fb₃, r', heq, ⟨-, -, -, -, hzero⟩ | ⟨hfail, -⟩⟩
    · cases heq
      exact hzero
    · cases heq
      omega
  · exact fun hzero => ⟨fb₂, _, rfl, Or.inl ⟨rfl, hused, hcontents, hroom, hzero⟩⟩

theorem terminated_iff_of_isSome (h : Backed fb) (hdata : fb.data.isSome = true) :
    Terminated fb ↔ behind fb = some (some 0) :=
  ⟨fun hterm => (hterm hdata).2, fun hzero _ => ⟨h.covers hdata, hzero⟩⟩

/-- `fbuf_prepend_binary` is right exactly under these conditions. -/
theorem prepends_iff (hreach : Reachable EnoughMemory fb) (hbytes : bytes ≠ [])
    (hlen : bytes.length ≤ INT_MAX) : Prepends fb bytes ↔ PrependFits fb bytes.length := by
  have h := hreach.sound
  have hne : bytes.length ≠ 0 := fun hzero => hbytes (List.eq_nil_of_length_eq_zero hzero)
  have hranges := h.ranges
  have hskip : fb.skip ≤ fb.len := (Nat.le_add_right _ _).trans h.le
  rw [PrependFits]
  by_cases hfront : (bytes.length : ℤ) ≤ toInt fb.skip
  · have hdata : fb.data.isSome = true := by
      rcases h.storage with ⟨-, -, hzero⟩ | ⟨cs, hdata, -⟩
      · have := toInt_le_self fb.skip
        omega
      · rw [hdata]
        rfl
    obtain ⟨fb', hrun, hused, hcontents, hroom, hbehind⟩ :=
      prependBinary_in_front (fun _ => true) h hne hfront
    rw [if_pos hfront, terminated_iff_of_isSome h.toBacked hdata, Prepends, hrun, ← hbehind]
    constructor
    · rintro ⟨fb₂, r, heq, ⟨-, -, -, -, hzero⟩ | ⟨hfail, -⟩⟩
      · cases heq
        exact hzero
      · cases heq
        omega
    · exact fun hzero => ⟨fb', _, rfl, Or.inl ⟨rfl, hused, hcontents, hroom, hzero⟩⟩
  rw [if_neg hfront]
  by_cases hround : fb.used + bytes.length + 1 < UINT_RANGE
  swap
  · refine iff_of_false ?_ fun hfits => hround hfits.1
    rintro ⟨fb', r, hrun, -⟩
    rw [prependBinary_round h hlen hfront (Nat.not_lt.mp hround) hne] at hrun
    cases hrun
  rw [and_iff_right hround]
  have hsum : uadd (uadd fb.used bytes.length) 1 = fb.used + bytes.length + 1 := by
    rw [uadd_of_lt (by omega : fb.used + bytes.length < UINT_RANGE), uadd_of_lt hround]
  cases hext : fbufExtend (fun _ => true) fb (uadd fb.used bytes.length) with
  | none =>
      have hnever := mt (isSome_fbufExtend_iff (fun _ => true) h.toBacked).mpr
        (by rw [hext]; exact Bool.false_ne_true)
      rw [hsum, not_or, not_or] at hnever
      rw [if_neg hnever.1]
      refine iff_of_false ?_ ?_
      · rintro ⟨fb', r, hrun, -⟩
        rw [fbufPrependBinary] at hrun
        dsimp only at hrun
        rw [if_neg hne, if_neg hfront, hext] at hrun
        cases hrun
      · rintro (hover | ⟨-, -, hgrows⟩)
        · exact hnever.2.1 hover
        · exact hnever.2.2 hgrows
  | some ext =>
      obtain ⟨fb', r⟩ := ext
      have hcases := fbufExtend_cases h.toBacked hext
      rw [hsum] at hcases
      cases hcases with
      | room hroom =>
          have hdata : fb.data.isSome = true := by
            obtain ⟨cs, hdata, -⟩ := h.exists_cells (by omega)
            rw [hdata]
            rfl
          rw [prepends_iff_of_extend h hne hfront hround hext (by omega), if_pos (by omega),
            ← terminated_iff_of_isSome h.toBacked hdata]
          exact ⟨Or.inl, fun h => h.resolve_right fun h => absurd h.2 (Nat.not_lt.mpr hroom)⟩
      | @compacted cs hmore hfit hlen hcontents hbehind htail =>
          have hdata : fb.data.isSome = true := by
            obtain ⟨cs', hdata, -⟩ := h.exists_cells (by omega)
            rw [hdata]
            rfl
          have hsame : behind { fb with data := some cs, skip := 0 } =
              if fb.used = 0 then some (some 0) else behind fb := by
            show cs[0 + fb.used]? = _
            rw [Nat.zero_add, hbehind]
          rw [prepends_iff_of_extend h hne hfront hround hext (by omega), if_pos hfit, hsame,
            terminated_iff_of_isSome h.toBacked hdata]
          by_cases hused : fb.used = 0
          · rw [if_pos hused]
            exact iff_of_true rfl (Or.inr ⟨hused, hmore⟩)
          · rw [if_neg hused]
            exact ⟨Or.inl, fun h => h.resolve_right fun h => hused h.1⟩
      | refused hmore hover =>
          rw [if_neg (Nat.not_le.mpr hmore)]
          refine iff_of_true ⟨fb, -1, ?_, Or.inr ⟨rfl, ⟨rfl, rfl⟩, rfl⟩⟩ (Or.inl hover)
          rw [fbufPrependBinary]
          dsimp only
          rw [if_neg hne, if_neg hfront, hext]
          rfl
      | failed hmore hfits hrequests halloc => cases halloc
      | @reallocated _ cs hmore hfits hrequests halloc hused hlen hcontents hbehind htail =>
          have hsame : behind { fb with data := some cs, len := r, skip := 0 } =
              if fb.skip ≠ 0 then some none else if fb.data = none then some (some 0)
              else behind fb := by
            show cs[0 + fb.used]? = _
            rw [Nat.zero_add, hbehind]
          rw [prepends_iff_of_extend h hne hfront hround hext (by omega), hsame,
            if_neg (Nat.not_le.mpr hmore), or_iff_right hfits, and_iff_left hrequests.growsTo]
          by_cases hzero : fb.skip = 0
          · rw [if_neg (not_not.mpr hzero), and_iff_right hzero]
            cases hdata : fb.data with
            | none =>
                rw [if_pos rfl]
                refine iff_of_true rfl fun hsome => ?_
                rw [hdata] at hsome
                cases hsome
            | some cs' =>
                rw [if_neg (Option.some_ne_none cs'), terminated_iff_of_isSome h.toBacked]
                rw [hdata]
                rfl
          · rw [if_pos hzero]
            exact iff_of_false (by decide) fun h => hzero h.1

/-- A buffer for at most 140 bytes that holds 100. -/
def hundred : FBuf :=
  { fbufCreate 140 with
    data := some (List.replicate 100 (some 97) ++ some 0 :: List.replicate 27 none)
    len := 128
    used := 100 }

/-- Its first forty bytes are removed. -/
def sixty : FBuf := { hundred with used := 60, skip := 40 }

set_option maxRecDepth 4000 in
theorem hundred_eq :
    fbufAddBinary (fun _ => true) (fbufCreate 140) (List.replicate 100 (some 97)) =
      some (hundred, 100) := rfl

set_option maxRecDepth 4000 in
theorem sixty_eq : fbufRemove hundred 40 = some (sixty, 60) := rfl

theorem sixty_reachable : Reachable EnoughMemory sixty := by
  have hmemory : EnoughMemory fun _ => true := fun _ => rfl
  have hnew : Reachable EnoughMemory (fbufCreate 140) := .create (by decide)
  have hadd : perform (fun _ => true) (fbufCreate 140)
      (.addBinary (List.replicate 100 (some 97))) = some hundred := by
    rw [perform, hundred_eq, Option.map_some]
  have hremove : perform (fun _ => true) hundred (.remove 40) = some sixty := by
    rw [perform, sixty_eq, Option.map_some]
  have hhundred := hnew.call _ (.addBinary _) hmemory trivial hadd
  exact hhundred.call _ (.remove 40) hmemory trivial hremove

set_option maxRecDepth 4000 in
/-- The new storage does not get the terminator. -/
theorem prepend_loses_terminator :
    ((∃ r, fbufAddBinary (fun _ => true) (fbufCreate 140) (List.replicate 100 (some 97)) =
        some (hundred, r)) ∧ fbufRemove hundred 40 = some (sixty, 60)) ∧
      ¬ Prepends sixty (List.replicate 75 (some 98)) := by
  refine ⟨⟨⟨100, hundred_eq⟩, sixty_eq⟩, ?_⟩
  rintro ⟨fb', r, hrun, hprepends⟩
  have hlost : (fbufPrependBinary (fun _ => true) sixty (List.replicate 75 (some 98))).map
      (fun r => (r.2, behind r.1)) = some (75, some none) := rfl
  rw [hrun, Option.map_some] at hlost
  obtain ⟨hr, hbehind⟩ := Prod.mk.inj (Option.some.inj hlost)
  rcases hprepends with ⟨-, -, -, -, hzero⟩ | ⟨hfail, -⟩
  · rw [hbehind] at hzero
    exact absurd hzero (by decide)
  · exact absurd (hr.symm.trans hfail) (by decide)

theorem prepends_iff_sixty :
    Prepends sixty (List.replicate 75 (some 98)) ↔
      PrependFits sixty (List.replicate 75 (some (98 : UInt8))).length :=
  prepends_iff sixty_reachable (by decide) (by decide)

end FBuf
end LibHL
