import LibHL.FBuf.ReadLine

/-!
# Adding a line

`fbuf_add_ln` adds the string and then the newline.  Each is added completely or not at all, but
the string stays if there is no room for the newline.
-/

namespace LibHL
namespace FBuf

open Storage

variable {alloc : ℕ → Bool} {fb fb' : FBuf} {bytes : List (Option UInt8)} {str : List UInt8}
  {N n r : ℕ}

/-- The string is appended with a newline, and the length of both returned; or nothing is added
and `-1` returned. -/
def AddsLine (alloc : ℕ → Bool) (fb : FBuf) (str : List UInt8) : Prop :=
  ∃ fb' r, fbufAddLn alloc fb str = some (fb', r) ∧
    ((r = (cstring str).length + 1 ∧ fb'.used = fb.used + ((cstring str).length + 1) ∧
        contents fb' = contents fb ++ (cstring str ++ [NEWLINE]).map some) ∨
      (r = -1 ∧ SameContent fb fb'))

/-- `N` bytes with the terminator need more storage, and the limit or the allocation fails. -/
def Fails (alloc : ℕ → Bool) (fb : FBuf) (N : ℕ) : Prop :=
  N < UINT_RANGE ∧ fb.len < N ∧
    (Refuses fb N ∨ ∃ size, Requests fb N size ∧ alloc size = false)

/-- They get more storage, or end inside the one that is there. -/
def HasPlace (alloc : ℕ → Bool) (fb : FBuf) (N : ℕ) : Prop :=
  N < UINT_RANGE ∧
    if fb.len < N then ¬ Refuses fb N ∧ ∃ size, Requests fb N size ∧ alloc size = true
    else if fb.skip + N ≤ fb.len then fb.skip + N ≤ (cells fb).length
    else N ≤ (cells fb).length

/-- The first part that is added fails, or all parts have their place. -/
def AddLineFits (alloc : ℕ → Bool) (fb : FBuf) (n : ℕ) : Prop :=
  if n = 0 then
    Fails alloc fb (fb.used + 2) ∨ HasPlace alloc fb (fb.used + 2)
  else
    Fails alloc fb (fb.used + n + 1) ∨
      HasPlace alloc fb (fb.used + n + 1) ∧ HasPlace alloc fb (fb.used + n + 2)

/-! ## One part -/

theorem fbufAddBinary_of_fails (hne : bytes ≠ [])
    (hext : fbufExtend alloc fb (uadd fb.used bytes.length) = some (fb', 0)) :
    fbufAddBinary alloc fb bytes = some (fb', -1) := by
  rw [fbufAddBinary, if_neg (fun hzero => hne (List.length_eq_zero_iff.mp hzero)), hext]
  rfl

/-- The bytes and their terminator are written behind the content. -/
theorem fbufAddBinary_eq (h : Backed fb) (hne : bytes ≠ [])
    (hext : fbufExtend alloc fb (uadd fb.used bytes.length) = some (fb', r)) (hr : r ≠ 0)
    (hin : fb'.skip + fb.used + bytes.length < (cells fb').length) :
    ∃ cs, fbufAddBinary alloc fb bytes =
        some ({ fb' with data := some cs, used := fb.used + bytes.length }, (bytes.length : ℤ)) ∧
      cs.length = (cells fb').length ∧
      contents { fb' with data := some cs, used := fb.used + bytes.length } =
        contents fb ++ bytes := by
  have hcases := fbufExtend_cases h hext
  obtain ⟨hused, hcontents⟩ := hcases.sameContent
  have hlt := (hcases.backed h).cells_lt
  obtain ⟨cs, hpoke, hlen, htake, -⟩ := poke_behind hne (by omega : fb'.skip + fb'.used + _ ≤ _)
  obtain ⟨cs', hterm, hlen', hcontents', -⟩ :=
    @terminate_eq { fb' with data := some cs, used := fb.used + bytes.length }
      (by rw [cells_some rfl]; omega) (by rw [cells_some rfl]; dsimp only; omega)
  refine ⟨cs', ?_, hlen'.trans hlen, hcontents'.trans ?_⟩
  · rw [fbufAddBinary, if_neg (fun hzero => hne (List.length_eq_zero_iff.mp hzero)), hext]
    simp only [Option.bind_eq_bind, Option.bind_some]
    rw [if_neg hr, uadd_of_lt (by omega : fb'.skip + fb'.used < UINT_RANGE), hpoke,
      Option.bind_some, hused, uadd_of_lt (by omega), hterm]
    rfl
  · rw [← hcontents]
    refine Eq.trans ?_ ((htake bytes.length le_rfl).trans (by rw [List.take_length]))
    rw [hused]
    rfl

theorem fbufAddBinary_eq_none (h : Backed fb) (hne : bytes ≠ [])
    (hext : fbufExtend alloc fb (uadd fb.used bytes.length) = some (fb', r)) (hr : r ≠ 0)
    (hout : (cells fb').length ≤ fb'.skip + fb.used + bytes.length) :
    fbufAddBinary alloc fb bytes = none := by
  have hcases := fbufExtend_cases h hext
  have hused := hcases.sameContent.used
  have hbacked := hcases.backed h
  have hlt := hbacked.cells_lt
  have hsum := hbacked.used_lt
  rw [fbufAddBinary, if_neg (fun hzero => hne (List.length_eq_zero_iff.mp hzero)), hext]
  simp only [Option.bind_eq_bind, Option.bind_some]
  rw [if_neg hr, uadd_of_lt (by omega : fb'.skip + fb'.used < UINT_RANGE)]
  cases hpoke : poke fb'.data (fb'.skip + fb'.used) bytes with
  | none => rfl
  | some data =>
      have hle : fb'.skip + fb'.used + bytes.length ≤ (cells fb').length := le_of_poke hne hpoke
      have hlen : (data.getD []).length = (cells fb').length := length_poke hpoke
      cases hterm : terminate { fb' with data := data, used := uadd fb'.used bytes.length } with
      | none =>
          rw [Option.bind_some, hterm]
          rfl
      | some fb₂ =>
          obtain ⟨-, -, -, hin⟩ := terminate_eq_some hterm
          have hcells : cells { fb' with data := data, used := uadd fb'.used bytes.length } =
            data.getD [] := rfl
          rw [hcells, hlen] at hin
          dsimp only at hin
          rw [uadd_of_lt (by omega : fb'.used + bytes.length < UINT_RANGE),
            uadd_of_lt (by omega)] at hin
          omega

theorem Fails.not_hasPlace (h : Fails alloc fb N) : ¬ HasPlace alloc fb N := by
  obtain ⟨-, hmore, hfails⟩ := h
  rintro ⟨-, hplace⟩
  rw [if_pos hmore] at hplace
  obtain ⟨hfits, size, hrequests, halloc⟩ := hplace
  rcases hfails with hover | ⟨size', hrequests', hfails⟩
  · exact hfits hover
  · rw [hrequests'.unique hrequests, halloc] at hfails
    cases hfails

theorem isSome_of_fits (h : Backed fb) {newlen : ℕ} (hN : uadd newlen 1 = N)
    (hfits : Fails alloc fb N ∨ HasPlace alloc fb N) :
    (fbufExtend alloc fb newlen).isSome = true := by
  rw [isSome_fbufExtend_iff alloc h, hN]
  rcases hfits with ⟨-, -, hover | ⟨size, hrequests, -⟩⟩ | ⟨-, hplace⟩
  · exact Or.inr (Or.inl hover)
  · exact Or.inr (Or.inr hrequests.growsTo)
  · by_cases hmore : fb.len < N
    · rw [if_pos hmore] at hplace
      obtain ⟨-, size, hrequests, -⟩ := hplace
      exact Or.inr (Or.inr hrequests.growsTo)
    · exact Or.inl (Nat.not_lt.mp hmore)

theorem Extended.fails_iff (hext : Extended alloc fb N fb' r) (hpos : 0 < N)
    (hround : N < UINT_RANGE) : Fails alloc fb N ↔ r = 0 := by
  rw [Fails, and_iff_right hround]
  by_cases hmore : fb.len < N
  · rw [and_iff_right hmore, hext.eq_zero_iff hmore]
  · refine iff_of_false (fun hboth => hmore hboth.1) ?_
    cases hext with
    | room hroom => omega
    | refused hless hover => exact absurd hless hmore
    | compacted hless hfit hlen hcontents hbehind htail => omega
    | failed hless hfits hrequests halloc => exact absurd hless hmore
    | reallocated hless hfits hrequests halloc hused hlen hcontents hbehind htail =>
        exact absurd hless hmore

/-- Otherwise there is a place if the storage reaches far enough. -/
theorem Extended.hasPlace_iff (h : Backed fb) (hext : Extended alloc fb N fb' r) (hr : r ≠ 0)
    (hround : N < UINT_RANGE) :
    HasPlace alloc fb N ↔ fb'.skip + N ≤ (cells fb').length := by
  rw [HasPlace, and_iff_right hround]
  cases hext with
  | room hroom => rw [if_neg (by omega), if_pos hroom]
  | refused hmore hover => exact absurd rfl hr
  | @compacted cs hmore hfit hlen hcontents hbehind htail =>
      have hcells : cells { fb with data := some cs, skip := 0 } = cs := rfl
      rw [if_neg (by omega), if_neg (by omega), hcells, hlen]
      dsimp only
      rw [Nat.zero_add]
  | failed hmore hfits hrequests halloc => exact absurd rfl hr
  | @reallocated _ cs hmore hfits hrequests halloc hused hlen hcontents hbehind htail =>
      have hsize := (hrequests.le h.ranges hfits).1
      have hcells : cells { fb with data := some cs, len := r, skip := 0 } = cs := rfl
      rw [if_pos hmore, hcells, hlen]
      refine iff_of_true ⟨hfits, r, hrequests, halloc⟩ ?_
      dsimp only
      omega

theorem Extended.hasPlace_succ (h : Backed fb) (hext : Extended alloc fb N fb' r) (hr : r ≠ 0)
    (hpos : 0 < N) : HasPlace alloc fb' (N + 1) ↔ HasPlace alloc fb (N + 1) := by
  have hcan := @Extended.canStore_iff alloc fb fb' N (N - 1) r h.ranges hext hr (by omega)
  have hsum : N - 1 + 2 = N + 1 := by omega
  rw [CanStore, CanStore, hsum] at hcan
  refine and_congr_right fun _ => ?_
  cases hext with
  | room hroom => exact Iff.rfl
  | refused hmore hover => exact absurd rfl hr
  | @compacted cs hmore hfit hlen hcontents hbehind htail =>
      have hcells : cells { fb with data := some cs, skip := 0 } = cs := rfl
      rw [hcells, hlen]
      dsimp only
      by_cases hgrow : fb.len < N + 1
      · rw [if_pos hgrow, if_pos hgrow]
        exact Iff.rfl
      · rw [if_neg hgrow, if_neg hgrow, if_pos (by omega), if_neg (by omega), Nat.zero_add]
  | failed hmore hfits hrequests halloc => exact absurd rfl hr
  | @reallocated _ cs hmore hfits hrequests halloc hused hlen hcontents hbehind htail =>
      rw [or_iff_right (by omega : ¬ N + 1 ≤ fb.len)] at hcan
      have hcells : cells { fb with data := some cs, len := r, skip := 0 } = cs := rfl
      rw [if_pos (by omega : fb.len < N + 1), ← hcan, hcells, hlen]
      dsimp only
      by_cases hgrow : r < N + 1
      · rw [if_pos hgrow, or_iff_right (by omega)]
      · rw [if_neg hgrow, if_pos (by omega)]
        exact iff_of_true (by omega) (Or.inl (by omega))

theorem fbufAddBinary_round (h : Backed fb) (hne : bytes ≠ []) (hlen : bytes.length ≤ INT_MAX)
    (hround : UINT_RANGE ≤ fb.used + bytes.length + 1) : fbufAddBinary alloc fb bytes = none := by
  have hrange : UINT_RANGE = 2 ^ 32 := rfl
  have hmax : INT_MAX = 2 ^ 31 - 1 := rfl
  have hused : fb.used ≠ 0 := by omega
  have hcovers := h.covers (h.isSome_of_used hused)
  have hlt := h.ranges.len_lt
  have hle := h.cells_le
  have hsum : uadd (uadd fb.used bytes.length) 1 ≤ fb.used := by
    by_cases hadd : fb.used + bytes.length < UINT_RANGE
    · rw [uadd_of_lt hadd, uadd, (by omega : fb.used + bytes.length + 1 = UINT_RANGE), Nat.mod_self]
      exact Nat.zero_le _
    · have hwrapped : uadd fb.used bytes.length = fb.used + bytes.length - UINT_RANGE := by
        rw [uadd, Nat.mod_eq_sub_mod (by omega), Nat.mod_eq_of_lt (by omega)]
      rw [hwrapped, uadd_of_lt (by omega)]
      omega
  exact fbufAddBinary_eq_none h hne (fbufExtend_room (by omega) h.ranges (by omega)) (by omega)
    (by omega)

/-- Adding bytes fails and changes no content, or is undefined, or appends them. -/
theorem fbufAddBinary_cases (alloc : ℕ → Bool) (h : Backed fb) (hne : bytes ≠ [])
    (hlen : bytes.length ≤ INT_MAX) (hN : N = fb.used + bytes.length + 1) :
    (Fails alloc fb N ∧ ∃ fb', fbufAddBinary alloc fb bytes = some (fb', -1) ∧ SameContent fb fb') ∨
    (¬ Fails alloc fb N ∧ ¬ HasPlace alloc fb N ∧ fbufAddBinary alloc fb bytes = none) ∨
    (¬ Fails alloc fb N ∧ HasPlace alloc fb N ∧
      ∃ fb', fbufAddBinary alloc fb bytes = some (fb', (bytes.length : ℤ)) ∧ Backed fb' ∧
        fb'.used = fb.used + bytes.length ∧ contents fb' = contents fb ++ bytes ∧
        (HasPlace alloc fb' (N + 1) ↔ HasPlace alloc fb (N + 1))) := by
  by_cases hround : N < UINT_RANGE
  swap
  · exact Or.inr (Or.inl ⟨fun hfails => hround hfails.1, fun hplace => hround hplace.1,
      fbufAddBinary_round h hne hlen (by omega)⟩)
  have hsum : uadd (uadd fb.used bytes.length) 1 = N := by
    rw [uadd_of_lt (by omega : fb.used + bytes.length < UINT_RANGE), uadd_of_lt (by omega), hN]
  cases hext : fbufExtend alloc fb (uadd fb.used bytes.length) with
  | none =>
      have hnone : ¬ (Fails alloc fb N ∨ HasPlace alloc fb N) := fun hfits => by
        have hsome := isSome_of_fits h hsum hfits
        rw [hext] at hsome
        cases hsome
      obtain ⟨hfails, hplace⟩ := not_or.mp hnone
      refine Or.inr (Or.inl ⟨hfails, hplace, ?_⟩)
      rw [fbufAddBinary, if_neg (fun hzero => hne (List.length_eq_zero_iff.mp hzero)), hext]
      rfl
  | some ext =>
      obtain ⟨fb₁, r⟩ := ext
      have hcases := fbufExtend_cases h hext
      rw [hsum] at hcases
      have hfails := hcases.fails_iff (by omega) hround
      by_cases hr : r = 0
      · subst hr
        exact Or.inl ⟨hfails.mpr rfl, fb₁, fbufAddBinary_of_fails hne hext, hcases.sameContent⟩
      have hplace := hcases.hasPlace_iff h hr hround
      refine Or.inr ?_
      by_cases hin : fb₁.skip + N ≤ (cells fb₁).length
      · obtain ⟨cs, hadd, hcs, hcontents⟩ := fbufAddBinary_eq h hne hext hr (by omega)
        have hbacked := hcases.backed h
        have hranges := hbacked.ranges
        have hle := hbacked.cells_le
        refine Or.inr ⟨mt hfails.mp hr, hplace.mpr hin, _, hadd, ?_, rfl, hcontents, ?_⟩
        · refine backed_of_inside ⟨hranges.len_lt, hranges.maxlen_lt, hranges.minlen_lt,
            hranges.fastgrowsize_lt, hranges.slowgrowsize_lt⟩ (hcs.trans_le hle) ?_
          show fb₁.skip + (fb.used + bytes.length) < cs.length
          omega
        · rw [← hcases.hasPlace_succ h hr (by omega), HasPlace, HasPlace, ← hcs]
          exact Iff.rfl
      · refine Or.inl ⟨mt hfails.mp hr, mt hplace.mp hin, ?_⟩
        exact fbufAddBinary_eq_none h hne hext hr (by omega)

/-! ## The string and the newline -/

theorem fbufAdd_newline (alloc : ℕ → Bool) (fb : FBuf) :
    fbufAdd alloc fb [NEWLINE] = fbufAddBinary alloc fb [some NEWLINE] := rfl

/-- A line is added completely or not at all exactly under this condition. -/
theorem addsLine_iff (hreach : Reachable AnyMemory fb) (hlen : (cstring str).length < INT_MAX) :
    AddsLine alloc fb str ↔ AddLineFits alloc fb (cstring str).length := by
  have h := hreach.backed
  rw [AddLineFits]
  by_cases hnil : cstring str = []
  · have hadd : fbufAdd alloc fb str = some (fb, 0) := if_pos hnil
    have hline : fbufAddLn alloc fb str = (fbufAddBinary alloc fb [some NEWLINE]).map fun r =>
        if r.2 = -1 then (r.1, -1) else (r.1, 0 + r.2) := by
      rw [fbufAddLn, hadd]
      simp only [Option.bind_eq_bind, Option.bind_some]
      rw [if_neg (by decide), fbufAdd_newline]
      cases fbufAddBinary alloc fb [some NEWLINE] with
      | none => rfl
      | some r => exact (apply_ite some _ _ _).symm
    rw [AddsLine, hnil, if_pos List.length_nil, hline]
    rcases fbufAddBinary_cases alloc h (List.cons_ne_nil (some NEWLINE) []) (by decide)
      (rfl : fb.used + 2 = _) with
      ⟨hfails, fb', hrun, hsame⟩ | ⟨hfails, hplace, hrun⟩ | ⟨-, hplace, fb', hrun, -, hused,
        hcontents, -⟩
    · rw [hrun]
      exact iff_of_true ⟨fb', -1, rfl, Or.inr ⟨rfl, hsame⟩⟩ (Or.inl hfails)
    · rw [hrun]
      refine iff_of_false ?_ (not_or.mpr ⟨hfails, hplace⟩)
      rintro ⟨fb', r, heq, -⟩
      cases heq
    · rw [hrun]
      exact iff_of_true ⟨fb', 1, rfl, Or.inl ⟨rfl, hused, hcontents⟩⟩ (Or.inr hplace)
  have hadd : fbufAdd alloc fb str = fbufAddBinary alloc fb ((cstring str).map some) :=
    if_neg hnil
  have hbytes : (cstring str).map some ≠ [] := mt List.map_eq_nil_iff.mp hnil
  have hcount : ((cstring str).map some).length = (cstring str).length := List.length_map _
  have hpos := List.length_pos_iff.mpr hnil
  rw [if_neg (by omega)]
  rcases fbufAddBinary_cases alloc h hbytes (by omega) rfl with
    ⟨hfails, fb', hrun, hsame⟩ | ⟨hfails, hplace, hrun⟩ | ⟨hfails, hplace, fb', hrun, hbacked,
      hused, hcontents, hnext⟩
  · rw [hcount] at hfails
    refine iff_of_true ⟨fb', -1, ?_, Or.inr ⟨rfl, hsame⟩⟩ (Or.inl hfails)
    rw [fbufAddLn, hadd, hrun]
    rfl
  · rw [hcount] at hfails hplace
    refine iff_of_false ?_ (not_or.mpr ⟨hfails, fun hboth => hplace hboth.1⟩)
    rintro ⟨fb', r, heq, -⟩
    rw [fbufAddLn, hadd, hrun] at heq
    cases heq
  rw [hcount] at hfails hplace hused hnext hrun
  rw [or_iff_right hfails, and_iff_right hplace, ← hnext]
  have hline : fbufAddLn alloc fb str = (fbufAddBinary alloc fb' [some NEWLINE]).map fun r =>
      if r.2 = -1 then (r.1, -1) else (r.1, ((cstring str).length : ℤ) + r.2) := by
    rw [fbufAddLn, hadd, hrun]
    simp only [Option.bind_eq_bind, Option.bind_some]
    rw [if_neg (by omega), fbufAdd_newline]
    cases fbufAddBinary alloc fb' [some NEWLINE] with
    | none => rfl
    | some r => exact (apply_ite some _ _ _).symm
  rw [AddsLine, hline]
  rcases fbufAddBinary_cases alloc hbacked (List.cons_ne_nil (some NEWLINE) []) (by decide)
    (by rw [hused]; rfl : fb.used + (cstring str).length + 1 + 1 = _) with
    ⟨hfails₂, fb₂, hrun₂, hsame₂⟩ | ⟨-, hplace₂, hrun₂⟩ | ⟨-, hplace₂, fb₂, hrun₂, -, hused₂,
      hcontents₂, -⟩
  · -- The string stays without its newline.
    rw [hrun₂]
    refine iff_of_false ?_ hfails₂.not_hasPlace
    rintro ⟨fb₃, r, heq, ⟨hr, -⟩ | ⟨-, hsame⟩⟩
    · cases heq
      omega
    · cases heq
      have := hsame.used.symm.trans hsame₂.used
      omega
  · rw [hrun₂]
    refine iff_of_false ?_ hplace₂
    rintro ⟨fb₃, r, heq, -⟩
    cases heq
  · rw [hrun₂]
    refine iff_of_true ⟨fb₂, (cstring str).length + 1, rfl, Or.inl ⟨rfl, ?_, ?_⟩⟩ hplace₂
    · rw [hused₂, hused]
      rfl
    · rw [hcontents₂, hcontents, List.append_assoc, List.map_append]
      rfl

/-- A string that fills the limit stays without its newline. -/
theorem addLn_leaves_string :
    ¬ AddsLine (fun _ => true) (fbufCreate 3) [97, 98, 99] := by
  rintro ⟨fb', r, hrun, hadds⟩
  have hstays : (fbufAddLn (fun _ => true) (fbufCreate 3) [97, 98, 99]).map
      (fun r => (r.2, r.1.used)) = some (-1, 3) := rfl
  rw [hrun, Option.map_some] at hstays
  obtain ⟨hr, hused⟩ := Prod.mk.inj (Option.some.inj hstays)
  rcases hadds with ⟨hcount, -⟩ | ⟨-, hsame⟩
  · exact absurd (hr.symm.trans hcount) (by decide)
  · exact absurd (hused.symm.trans hsame.used) (by decide)

theorem addsLine_iff_create :
    AddsLine (fun _ => true) (fbufCreate 3) [97, 98, 99] ↔
      AddLineFits (fun _ => true) (fbufCreate 3) (cstring [97, 98, 99]).length :=
  addsLine_iff (.create (by decide)) (by decide)

end FBuf
end LibHL
