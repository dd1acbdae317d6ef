import LibHL.FBuf.Reachable

/-!
# Reading a line

`fbuf_read_ln` and `fbuf_fread_ln` look for the end of the line in the last byte of the whole
buffer, and overwrite its terminator with the bytes they read.  So a buffer that ends in a
newline already gets nothing, and at the end of the stream the byte behind the content is
whatever the storage holds there.
-/

namespace LibHL
namespace FBuf

open Storage Circular Loop

variable {alloc : ℕ → Bool} {fb fb' : FBuf} {c : UInt8} {line input rest : List UInt8}
  {N M k u : ℕ}

theorem uadd_one_one {n : ℕ} (h : n + 2 < UINT_RANGE) : uadd (uadd n 1) 1 = n + 2 := by
  rw [uadd_of_lt (by omega : n + 1 < UINT_RANGE), uadd_of_lt (by omega : n + 1 + 1 < UINT_RANGE)]

/-! ## Room for one byte after another -/

/-- Behind `u` bytes, there is room for one more and the terminator, or it can be had. -/
def CanStore (alloc : ℕ → Bool) (fb : FBuf) (u : ℕ) : Prop :=
  u + 2 ≤ fb.len ∨
    ¬ Refuses fb (u + 2) ∧ ∃ size, Requests fb (u + 2) size ∧ alloc size = true

theorem canStore_iff (h : Backed fb) (hround : fb.used + 2 < UINT_RANGE) :
    CanStore alloc fb fb.used ↔
      ∃ fb' r, fbufExtend alloc fb (uadd fb.used 1) = some (fb', r) ∧ r ≠ 0 := by
  have hsum := uadd_one_one hround
  constructor
  · intro hstore
    have hsome : (fbufExtend alloc fb (uadd fb.used 1)).isSome = true := by
      rw [isSome_fbufExtend_iff alloc h, hsum]
      exact hstore.imp_right fun hmore => Or.inr (hmore.2.elim fun _ hsize => hsize.1.growsTo)
    obtain ⟨⟨fb', r⟩, hrun⟩ := Option.isSome_iff_exists.mp hsome
    refine ⟨fb', r, hrun, ?_⟩
    have hcases := fbufExtend_cases h hrun
    rw [hsum] at hcases
    cases hcases with
    | room hroom => omega
    | compacted hmore hfit hlen hcontents hbehind => omega
    | refused hmore hover =>
        rcases hstore with hfit | ⟨hfits, -⟩
        · omega
        · exact absurd hover hfits
    | failed hmore hfits hrequests halloc =>
        rcases hstore with hfit | ⟨-, size, hrequests', halloc'⟩
        · omega
        · rw [hrequests.unique hrequests', halloc'] at halloc
          cases halloc
    | reallocated hmore hfits hrequests halloc hused hlen hcontents hbehind => omega
  · rintro ⟨fb', r, hrun, hr⟩
    have hcases := fbufExtend_cases h hrun
    rw [hsum] at hcases
    cases hcases with
    | room hroom => exact Or.inl (by omega)
    | compacted hmore hfit hlen hcontents hbehind => exact Or.inl hfit
    | refused hmore hover => exact absurd rfl hr
    | failed hmore hfits hrequests halloc => exact absurd rfl hr
    | reallocated hmore hfits hrequests halloc hused hlen hcontents hbehind =>
        exact Or.inr ⟨hfits, _, hrequests, halloc⟩

/-- The schedule from the length that was requested on. -/
theorem requests_iff_of_stopsAfter {size : ℕ} (hNM : N ≤ M)
    (hk : StopsAfter (fun len => N ≤ len) (nextLen fb) fb.len k) :
    Requests fb M size ↔ Requests { fb with len := (nextLen fb)^[k] fb.len } M size := by
  have hgo : ∀ j < k, ¬ M ≤ (nextLen fb)^[j] fb.len := fun j hj hle => hk.before j hj (hNM.trans hle)
  have hafter : ∀ m, StopsAfter (fun len => M ≤ len) (nextLen fb) fb.len (m + k) ↔
      StopsAfter (fun len => M ≤ len) (nextLen fb) ((nextLen fb)^[k] fb.len) m :=
    fun m => stopsAfter_add_iff hgo
  constructor
  · rintro ⟨i, hi, hsize⟩
    obtain ⟨m, rfl⟩ : ∃ m, i = m + k := by
      refine ⟨i - k, ?_⟩
      by_contra hlt
      exact hgo i (by omega) hi.stops
    refine ⟨m, (hafter m).mp hi, ?_⟩
    rw [Function.iterate_add_apply] at hsize
    exact hsize
  · rintro ⟨m, hm, hsize⟩
    refine ⟨m + k, (hafter m).mpr hm, ?_⟩
    rw [Function.iterate_add_apply]
    exact hsize

theorem Extended.canStore_iff {r : ℕ} (hranges : Ranges fb) (hext : Extended alloc fb N fb' r)
    (hr : r ≠ 0) (hu : N ≤ u + 2) : CanStore alloc fb' u ↔ CanStore alloc fb u := by
  cases hext with
  | room hroom => exact Iff.rfl
  | refused hmore hover => exact absurd rfl hr
  | compacted hmore hfit hlen hcontents hbehind => exact Iff.rfl
  | failed hmore hfits hrequests halloc => exact absurd rfl hr
  | @reallocated _ cs hmore hfits hrequests halloc hused hlen hcontents hbehind =>
      obtain ⟨k, hk, hcap⟩ := hrequests
      have hlt := iterate_lt (fun len _ => hranges.nextLen_lt len) hranges.len_lt k
      have hfb : ¬ u + 2 ≤ fb.len := by omega
      -- The limit, if there is one, is above `N`.
      have hlimit : fb.maxlen ≠ 0 → uadd fb.maxlen 1 = fb.maxlen + 1 := by
        intro hne
        have hover : N ≤ uadd fb.maxlen 1 := Nat.not_lt.mp fun hlt => hfits ⟨hne, hlt⟩
        have hmax := hranges.maxlen_lt
        refine uadd_of_lt (Nat.lt_of_le_of_ne hmax fun heq => ?_)
        rw [uadd, heq, Nat.mod_self] at hover
        omega
      have hcap' := hcap
      rw [capped] at hcap'
      by_cases hle : u + 2 ≤ r
      · refine iff_of_true (Or.inl hle) (Or.inr ⟨?_, r, ⟨k, ⟨?_, ?_⟩, hcap⟩, halloc⟩)
        · rintro ⟨hne, hover⟩
          have hsome : fb.maxlen ≠ 0 := hne
          rw [hlimit hne] at hover
          split at hcap'
          · omega
          · omega
        · show u + 2 ≤ (nextLen fb)^[k] fb.len
          split at hcap'
          · omega
          · omega
        · exact fun j hj hstop => hk.before j hj (hu.trans hstop)
      by_cases hcapped : fb.maxlen ≠ 0 ∧ fb.maxlen < (nextLen fb)^[k] fb.len
      · -- The storage is as long as the limit admits.
        rw [if_pos hcapped] at hcap'
        have hover : Refuses fb (u + 2) := by
          refine ⟨hcapped.1, ?_⟩
          rw [hlimit hcapped.1]
          omega
        refine iff_of_false ?_ ?_
        · rintro (hle' | ⟨hfits', -⟩)
          · exact hle hle'
          · exact hfits' hover
        · rintro (hle' | ⟨hfits', -⟩)
          · exact hfb hle'
          · exact hfits' hover
      · rw [if_neg hcapped] at hcap'
        subst hcap'
        refine (or_iff_right hle).trans (Iff.trans ?_ (or_iff_right hfb).symm)
        refine and_congr_right fun _ => exists_congr fun size => and_congr_left fun _ => ?_
        exact (requests_iff_of_stopsAfter hu hk).symm

/-! ## The last byte of the content -/

theorem endsIn_eq (hsum : fb.skip + fb.used < UINT_RANGE) (c : UInt8) :
    endsIn fb c = if fb.used = 0 then some false
      else ((contents fb)[fb.used - 1]?.join).map (· == c) := by
  rw [endsIn]
  by_cases hused : fb.used = 0
  · rw [if_pos hused, if_pos hused]
  have hlast : (contents fb)[fb.used - 1]? = (cells fb)[fb.skip + fb.used - 1]? := by
    rw [contents, List.getElem?_take_of_lt (by omega), List.getElem?_drop]
    congr 1
    omega
  have hcell : readCell fb.data (fb.skip + fb.used - 1) = (cells fb)[fb.skip + fb.used - 1]?.join := by
    rw [readCell, cells]
    cases fb.data with
    | none => rfl
    | some cs => rfl
  rw [if_neg hused, if_neg hused, uadd_of_lt hsum, usub_of_le (by omega) hsum, hcell, hlast]
  cases (cells fb)[fb.skip + fb.used - 1]?.join with
  | none => rfl
  | some b => rfl

theorem endsIn_congr (hused : fb'.used = fb.used) (hcontents : contents fb' = contents fb)
    (hsum : fb.skip + fb.used < UINT_RANGE) (hsum' : fb'.skip + fb'.used < UINT_RANGE) (c : UInt8) :
    endsIn fb' c = endsIn fb c := by
  rw [endsIn_eq hsum, endsIn_eq hsum', hused, hcontents]

theorem exists_endsIn {c : UInt8} {b : Bool} (h : endsIn fb c = some b) (c' : UInt8) :
    ∃ b', endsIn fb c' = some b' := by
  rw [endsIn] at h ⊢
  by_cases hused : fb.used = 0
  · exact ⟨false, if_pos hused⟩
  · rw [if_neg hused] at h ⊢
    obtain ⟨last, hlast, -⟩ := Option.bind_eq_some_iff.mp h
    exact ⟨last == c', by rw [hlast]; rfl⟩

/-- A content that was continued by a byte ends in it. -/
theorem endsIn_stored {cs : List (Option UInt8)} {b : UInt8}
    (hsum : fb.skip + fb.used < UINT_RANGE) (hcontents : contents fb = cs ++ [some b])
    (hlen : fb.used = cs.length + 1) (c : UInt8) : endsIn fb c = some (b == c) := by
  have hlast : (contents fb)[fb.used - 1]? = some (some b) := by
    rw [hcontents, hlen, Nat.add_sub_cancel, List.getElem?_append_right le_rfl, Nat.sub_self]
    rfl
  rw [endsIn_eq hsum, if_neg (by omega), hlast]
  rfl

/-! ## Reading one byte -/

/-- The byte is written where the terminator was. -/
theorem store_byte {r : ℕ} (h : Sound fb)
    (hext : fbufExtend alloc fb (uadd fb.used 1) = some (fb', r)) (hr : r ≠ 0) (c : UInt8) :
    ∃ cs, poke fb'.data (fb'.skip + fb'.used) [some c] = some (some cs) ∧
      cs.length = fb'.len ∧ fb'.skip + fb.used < fb'.len ∧ fb'.len < UINT_RANGE ∧
      contents { fb' with data := some cs, used := fb.used + 1 } = contents fb ++ [some c] ∧
      (∀ p, fb'.skip + fb.used < p → cs[p]? = (cells fb')[p]?) ∧
      (fb.used + 2 < UINT_RANGE →
        Sound { fb' with data := some cs, used := fb.used + 1 }) := by
  have hcases := fbufExtend_cases h.toBacked hext
  have hsound := hcases.sound_of_ne h hr
  obtain ⟨hused, hcontents⟩ := hcases.sameContent
  have hroom := hcases.room_of_ne h.toBacked hr
  have hranges := hsound.ranges
  have hwhole := hsound.whole
  have hlen : fb'.len ≠ 0 := by
    rw [hcases.len_of_ne hr]
    exact hr
  obtain ⟨cs', hdata, -, -⟩ := hsound.exists_cells hlen
  have hinside := hsound.inside (by rw [hdata]; rfl)
  have hfit : fb'.skip + fb'.used + [some c].length ≤ (cells fb').length := hinside
  obtain ⟨cs, hpoke, hcells, htake, -⟩ := poke_behind (List.cons_ne_nil (some c) []) hfit
  have hkept : contents { fb' with data := some cs, used := fb.used + 1 } =
      contents fb ++ [some c] := by
    rw [← hcontents]
    refine Eq.trans ?_ (htake 1 le_rfl)
    rw [hused]
    rfl
  refine ⟨cs, hpoke, hcells.trans hwhole, by omega, hranges.len_lt, hkept, ?_, ?_⟩
  · intro p hp
    rw [hdata] at hpoke
    have hcs' := cells_some hdata
    rw [hcs'] at hfit
    rw [poke_of_le hfit] at hpoke
    obtain rfl := Option.some.inj (Option.some.inj hpoke)
    rw [getElem?_overwrite hfit, if_neg (by rw [List.length_singleton]; omega), hcs']
  · intro hmore
    rw [uadd_one_one hmore] at hroom
    refine sound_of_inside ⟨hranges.len_lt, hranges.maxlen_lt, hranges.minlen_lt,
      hranges.fastgrowsize_lt, hranges.slowgrowsize_lt⟩ (hcells.trans hwhole) ?_
    show fb'.skip + (fb.used + 1) < cs.length
    omega

/-- At the end of the stream, there is still room made for a byte. -/
theorem readUntilNewline_nil (hends : endsIn fb NEWLINE = some false) :
    readUntilNewline alloc fb [] =
      (fbufExtend alloc fb (uadd fb.used 1)).map fun r => (r.1, false, []) := by
  rw [readUntilNewline, hends]
  simp only [Option.bind_eq_bind, Option.bind_some, Bool.false_eq_true, if_false]
  cases fbufExtend alloc fb (uadd fb.used 1) with
  | none => rfl
  | some r => rfl

theorem readUntilNewline_step (hends : endsIn fb NEWLINE = some false) (c : UInt8)
    (input : List UInt8) :
    readUntilNewline alloc fb (c :: input) =
      (fbufExtend alloc fb (uadd fb.used 1)).bind fun r =>
        if r.2 = 0 then some (r.1, false, c :: input)
        else (poke r.1.data (r.1.skip + r.1.used) [some c]).bind fun data =>
          readUntilNewline alloc { r.1 with data := data, used := uadd r.1.used 1 } input := by
  rw [readUntilNewline, hends]
  rfl

/-- The loop goes on after a byte that was read. -/
theorem readUntilNewline_cons {cs : List (Option UInt8)} {r : ℕ}
    (hround : fb'.used + 1 < UINT_RANGE) (hends : endsIn fb NEWLINE = some false)
    (hext : fbufExtend alloc fb (uadd fb.used 1) = some (fb', r)) (hr : r ≠ 0)
    (hpoke : poke fb'.data (fb'.skip + fb'.used) [some c] = some (some cs))
    (input : List UInt8) :
    readUntilNewline alloc fb (c :: input) =
      readUntilNewline alloc { fb' with data := some cs, used := fb'.used + 1 } input := by
  rw [readUntilNewline_step hends, hext, Option.bind_some, if_neg hr, hpoke, Option.bind_some,
    uadd_of_lt hround]

/-- Without room, it ends without a newline, or never. -/
theorem readUntilNewline_full (hends : endsIn fb NEWLINE = some false)
    (hfull : ∀ fb' r, fbufExtend alloc fb (uadd fb.used 1) = some (fb', r) → r = 0)
    (c : UInt8) (input : List UInt8) :
    readUntilNewline alloc fb (c :: input) =
      (fbufExtend alloc fb (uadd fb.used 1)).map fun r => (r.1, false, c :: input) := by
  rw [readUntilNewline_step hends]
  cases hext : fbufExtend alloc fb (uadd fb.used 1) with
  | none => rfl
  | some r => exact if_pos (hfull r.1 r.2 hext)

/-! ## Reading up to the newline -/

/-- The buffer after these bytes were read, when the loop goes on with the rest. -/
structure HasRead (alloc : ℕ → Bool) (fb : FBuf) (line : List UInt8) (fb' : FBuf) : Prop where
  sound : Sound fb'
  used : fb'.used = fb.used + line.length
  contents : contents fb' = contents fb ++ line.map some
  ends : endsIn fb' NEWLINE = some false
  canStore : ∀ u, fb.used + line.length ≤ u → (CanStore alloc fb' u ↔ CanStore alloc fb u)
  goesOn : ∀ input, readUntilNewline alloc fb (line ++ input) = readUntilNewline alloc fb' input

theorem HasRead.nil (h : Sound fb) (hends : endsIn fb NEWLINE = some false) :
    HasRead alloc fb [] fb where
  sound := h
  used := rfl
  contents := (List.append_nil _).symm
  ends := hends
  canStore := fun _ _ => Iff.rfl
  goesOn := fun _ => rfl

theorem HasRead.trans {fb₂ : FBuf} {line' : List UInt8} (h : HasRead alloc fb line fb')
    (h' : HasRead alloc fb' line' fb₂) : HasRead alloc fb (line ++ line') fb₂ where
  sound := h'.sound
  used := by
    rw [h'.used, h.used, List.length_append, Nat.add_assoc]
  contents := by
    rw [h'.contents, h.contents, List.map_append, List.append_assoc]
  ends := h'.ends
  canStore := by
    intro u hu
    rw [List.length_append] at hu
    exact (h'.canStore u (by rw [h.used]; omega)).trans (h.canStore u (by omega))
  goesOn := by
    intro input
    rw [List.append_assoc, h.goesOn, h'.goesOn]

/-- One byte. -/
theorem hasRead_singleton {cs : List (Option UInt8)} {ext : FBuf} {r : ℕ} (h : Sound fb)
    (hends : endsIn fb NEWLINE = some false) (hc : c ≠ NEWLINE)
    (hround : fb.used + 2 < UINT_RANGE)
    (hext : fbufExtend alloc fb (uadd fb.used 1) = some (ext, r)) (hr : r ≠ 0)
    (hpoke : poke ext.data (ext.skip + ext.used) [some c] = some (some cs))
    (hcontents : contents { ext with data := some cs, used := fb.used + 1 } =
      contents fb ++ [some c])
    (hsound : Sound { ext with data := some cs, used := fb.used + 1 }) :
    HasRead alloc fb [c] { ext with data := some cs, used := fb.used + 1 } := by
  have hcases := fbufExtend_cases h.toBacked hext
  have hsame := hcases.sameContent
  have hlen := h.toBacked.length_contents
  have hsum := hsound.toBacked.used_lt
  rw [uadd_one_one hround] at hcases
  refine ⟨hsound, rfl, hcontents, ?_, ?_, ?_⟩
  · rw [endsIn_stored (by omega) hcontents (congrArg Nat.succ hlen.symm)]
    exact congrArg some (beq_false_of_ne hc)
  · intro u hu
    rw [List.length_singleton] at hu
    have hsame := hcases.canStore_iff (u := u) h.ranges hr (by omega)
    exact hsame
  · intro input
    have hgo := readUntilNewline_cons (by rw [hsame.used]; omega) hends hext hr hpoke input
    rw [hsame.used] at hgo
    exact hgo

theorem exists_hasRead_singleton (h : Sound fb) (hends : endsIn fb NEWLINE = some false)
    (hc : c ≠ NEWLINE) (hround : fb.used + 2 < UINT_RANGE) (hstore : CanStore alloc fb fb.used) :
    ∃ fb', HasRead alloc fb [c] fb' := by
  obtain ⟨ext, r, hext, hr⟩ := (canStore_iff h.toBacked hround).mp hstore
  obtain ⟨cs, hpoke, -, -, -, hcontents, -, hsound⟩ := store_byte h hext hr c
  exact ⟨_, hasRead_singleton h hends hc hround hext hr hpoke hcontents (hsound hround)⟩

/-- A line, as long as its bytes can be stored. -/
theorem exists_hasRead : ∀ (line : List UInt8) {fb : FBuf}, Sound fb →
    endsIn fb NEWLINE = some false → NEWLINE ∉ line →
    fb.used + line.length + 1 < UINT_RANGE →
    (∀ u, fb.used ≤ u → u < fb.used + line.length → CanStore alloc fb u) →
    ∃ fb', HasRead alloc fb line fb' := by
  intro line
  induction line with
  | nil => exact fun h hends _ _ _ => ⟨_, HasRead.nil h hends⟩
  | cons c line ih =>
      intro fb h hends hline hround hstore
      rw [List.length_cons] at hround hstore
      obtain ⟨hc, hline⟩ := not_or.mp (mt List.mem_cons.mpr hline)
      obtain ⟨fb₁, h₁⟩ := exists_hasRead_singleton h hends (Ne.symm hc) (by omega)
        (hstore fb.used le_rfl (by omega))
      have hused := h₁.used
      rw [List.length_singleton] at hused
      obtain ⟨fb₂, h₂⟩ := ih h₁.sound h₁.ends hline (by omega) fun u hu hlt =>
        (h₁.canStore u (by rw [List.length_singleton]; omega)).mpr
          (hstore u (by omega) (by omega))
      exact ⟨fb₂, h₁.trans h₂⟩

/-! ## Dropping the end of the line -/

theorem dropLast_eq (hused : fb.used ≠ 0) (hle : fb.skip + fb.used ≤ (cells fb).length)
    (hlt : (cells fb).length < UINT_RANGE) :
    ∃ cs, dropLast fb = some { fb with data := some cs, used := fb.used - 1 } ∧
      cs.length = (cells fb).length ∧
      contents { fb with data := some cs, used := fb.used - 1 } =
        (contents fb).take (fb.used - 1) ∧
      behind { fb with data := some cs, used := fb.used - 1 } = some (some 0) := by
  have hin : fb.skip + (fb.used - 1) < (cells fb).length := by omega
  obtain ⟨cs, hterm, hlen, hcontents, hbehind⟩ :=
    @terminate_eq { fb with used := fb.used - 1 } hlt hin
  refine ⟨cs, ?_, hlen, hcontents.trans ?_, hbehind⟩
  · rw [dropLast, usub_of_le (by omega) (by omega)]
    exact hterm
  · show ((cells fb).drop fb.skip).take (fb.used - 1) = _
    rw [contents, List.take_take, Nat.min_eq_left (Nat.sub_le _ _)]

theorem exists_dropLast (h : Backed fb) (hused : fb.used ≠ 0) :
    ∃ fb', dropLast fb = some fb' ∧ Backed fb' ∧ fb'.used = fb.used - 1 ∧
      contents fb' = (contents fb).take (fb.used - 1) ∧ fb'.skip + fb'.used < fb'.len ∧
      behind fb' = some (some 0) := by
  have hinside := h.inside (h.isSome_of_used hused)
  have hle := h.cells_le
  have hranges := h.ranges
  obtain ⟨cs, hdrop, hlen, hcontents, hbehind⟩ := dropLast_eq hused hinside.le h.cells_lt
  refine ⟨_, hdrop, backed_of_inside ⟨hranges.len_lt, hranges.maxlen_lt, hranges.minlen_lt,
    hranges.fastgrowsize_lt, hranges.slowgrowsize_lt⟩ (hlen.trans_le hle) ?_, rfl, hcontents, ?_,
    hbehind⟩
  · show fb.skip + (fb.used - 1) < cs.length
    omega
  · show fb.skip + (fb.used - 1) < fb.len
    omega

theorem readUntilNewline_none (hends : endsIn fb NEWLINE = none) (input : List UInt8) :
    readUntilNewline alloc fb input = none := by
  cases input with
  | nil =>
      rw [readUntilNewline, hends]
      rfl
  | cons c input =>
      rw [readUntilNewline, hends]
      rfl

theorem readUntilNewline_done (hends : endsIn fb NEWLINE = some true) (input : List UInt8) :
    readUntilNewline alloc fb input = some (fb, true, input) := by
  cases input with
  | nil =>
      rw [readUntilNewline, hends]
      rfl
  | cons c input =>
      rw [readUntilNewline, hends]
      rfl

theorem endsIn_of_reads : ∀ (input : List UInt8) {fb fb' : FBuf} {rest : List UInt8},
    readUntilNewline alloc fb input = some (fb', true, rest) → endsIn fb' NEWLINE = some true := by
  intro input
  induction input with
  | nil =>
      intro fb fb' rest hrun
      cases hends : endsIn fb NEWLINE with
      | none =>
          rw [readUntilNewline_none hends] at hrun
          cases hrun
      | some last =>
          cases last with
          | true =>
              rw [readUntilNewline_done hends] at hrun
              cases hrun
              exact hends
          | false =>
              rw [readUntilNewline_nil hends] at hrun
              obtain ⟨r, -, heq⟩ := Option.map_eq_some_iff.mp hrun
              cases heq
  | cons c input ih =>
      intro fb fb' rest hrun
      cases hends : endsIn fb NEWLINE with
      | none =>
          rw [readUntilNewline_none hends] at hrun
          cases hrun
      | some last =>
          cases last with
          | true =>
              rw [readUntilNewline_done hends] at hrun
              cases hrun
              exact hends
          | false =>
              rw [readUntilNewline_step hends] at hrun
              obtain ⟨r, -, hrun⟩ := Option.bind_eq_some_iff.mp hrun
              by_cases hr : r.2 = 0
              · rw [if_pos hr] at hrun
                cases hrun
              · rw [if_neg hr] at hrun
                obtain ⟨data, -, hrun⟩ := Option.bind_eq_some_iff.mp hrun
                exact ih hrun

/-- The last byte can also be stored where the number of bytes would go round. -/
theorem exists_extend (h : Sound fb) (hround : fb.used + 1 < UINT_RANGE)
    (hstore : fb.used + 2 < UINT_RANGE → CanStore alloc fb fb.used) :
    ∃ fb' r, fbufExtend alloc fb (uadd fb.used 1) = some (fb', r) ∧ r ≠ 0 := by
  by_cases hmore : fb.used + 2 < UINT_RANGE
  · exact (canStore_iff h.toBacked hmore).mp (hstore hmore)
  · have hlen := h.toBacked.used_lt_len (by have : UINT_RANGE = 2 ^ 32 := rfl; omega)
    have hsum : uadd (uadd fb.used 1) 1 = 0 := by
      rw [uadd_of_lt hround, uadd, (by omega : fb.used + 1 + 1 = UINT_RANGE), Nat.mod_self]
    have hle := h.toBacked.le
    exact ⟨fb, fb.len, fbufExtend_room (by omega) h.ranges (by rw [hsum]; omega), by omega⟩

/-- The newline that was stored is dropped again. -/
theorem read_stored_newline {cs : List (Option UInt8)} {ext : FBuf} {r : ℕ}
    (hends : endsIn fb NEWLINE = some false)
    (hext : fbufExtend alloc fb (uadd fb.used 1) = some (ext, r)) (hr : r ≠ 0)
    (hranges : Ranges ext) (hused : ext.used = fb.used)
    (hpoke : poke ext.data (ext.skip + ext.used) [some NEWLINE] = some (some cs))
    (hle : cs.length ≤ ext.len) (hin : ext.skip + fb.used < cs.length)
    (hlen : (contents fb).length = fb.used)
    (hcontents : contents { ext with data := some cs, used := fb.used + 1 } =
      contents fb ++ [some NEWLINE]) (rest : List UInt8) :
    ∃ fb₁ fb₂, readUntilNewline alloc fb (NEWLINE :: rest) = some (fb₁, true, rest) ∧
      dropLast fb₁ = some fb₂ ∧ Backed fb₂ ∧ fb₂.used = fb.used ∧ contents fb₂ = contents fb ∧
      fb₂.skip + fb₂.used < fb₂.len ∧ behind fb₂ = some (some 0) := by
  have hlt := hranges.len_lt
  have hlast : endsIn { ext with data := some cs, used := fb.used + 1 } NEWLINE = some true :=
    endsIn_stored (by dsimp only; omega) hcontents (congrArg Nat.succ hlen.symm) NEWLINE
  have hgo := readUntilNewline_cons (by omega) hends hext hr hpoke rest
  rw [hused, readUntilNewline_done hlast] at hgo
  have hcells : cells { ext with data := some cs, used := fb.used + 1 } = cs := rfl
  obtain ⟨cs', hdrop, hlen', hcontents', hbehind⟩ :=
    @dropLast_eq { ext with data := some cs, used := fb.used + 1 } (Nat.succ_ne_zero _)
      (by rw [hcells]; dsimp only; omega) (by rw [hcells]; omega)
  rw [hcells] at hlen'
  refine ⟨_, _, hgo, hdrop, ?_, rfl, ?_, ?_, hbehind⟩
  · refine backed_of_inside ⟨hranges.len_lt, hranges.maxlen_lt, hranges.minlen_lt,
      hranges.fastgrowsize_lt, hranges.slowgrowsize_lt⟩ (hlen'.trans_le hle) ?_
    show ext.skip + fb.used < cs'.length
    omega
  · refine hcontents'.trans ?_
    rw [hcontents]
    show (contents fb ++ [some NEWLINE]).take fb.used = _
    rw [← hlen, List.take_left]
  · show ext.skip + fb.used < ext.len
    omega

theorem read_newline (h : Sound fb) (hends : endsIn fb NEWLINE = some false)
    (hround : fb.used + 1 < UINT_RANGE)
    (hstore : fb.used + 2 < UINT_RANGE → CanStore alloc fb fb.used) (rest : List UInt8) :
    ∃ fb₁ fb₂, readUntilNewline alloc fb (NEWLINE :: rest) = some (fb₁, true, rest) ∧
      dropLast fb₁ = some fb₂ ∧ Backed fb₂ ∧ fb₂.used = fb.used ∧ contents fb₂ = contents fb ∧
      fb₂.skip + fb₂.used < fb₂.len ∧ behind fb₂ = some (some 0) := by
  obtain ⟨ext, r, hext, hr⟩ := exists_extend h hround hstore
  obtain ⟨cs, hpoke, hcs, hin, hlt, hcontents, -, -⟩ := store_byte h hext hr NEWLINE
  have hcases := fbufExtend_cases h.toBacked hext
  exact read_stored_newline hends hext hr (hcases.sound_of_ne h hr).ranges
    hcases.sameContent.used hpoke hcs.le (by omega) h.toBacked.length_contents hcontents rest

/-! ## A line with its newline -/

/-- The line without a carriage return at its end. -/
def withoutReturn (line : List UInt8) : List UInt8 :=
  if line.getLast? = some RETURN then line.dropLast else line

/-- The line is appended to the content, terminated, and its length returned; it is consumed with
its newline. -/
def Gets (alloc : ℕ → Bool)
    (read : (ℕ → Bool) → FBuf → List UInt8 → Option (FBuf × ℤ × List UInt8)) (fb : FBuf)
    (line rest : List UInt8) : Prop :=
  ∃ fb', read alloc fb (line ++ NEWLINE :: rest) =
      some (fb', ((withoutReturn line).length : ℤ), rest) ∧
    fb'.used = fb.used + (withoutReturn line).length ∧
    contents fb' = contents fb ++ (withoutReturn line).map some ∧
    fb'.skip + fb'.used < fb'.len ∧ behind fb' = some (some 0)

/-- The storage can be filled before another one is needed: it is as long as the length says, or
lacks just the last byte, where only a terminator would lie. -/
def Fillable (fb : FBuf) : Prop :=
  (cells fb).length = fb.len ∨
    (cells fb).length + 1 = fb.len ∧ fb.skip = 0 ∧ fb.len + 1 < UINT_RANGE

/-- The content does not end in a newline, nor in a carriage return before an empty line; the
numbers of bytes do not go round; there is room, or there can be, for every byte; and the room is
there, unless an allocation failed before. -/
structure LineFits (alloc : ℕ → Bool) (fb : FBuf) (line : List UInt8) : Prop where
  ends : endsIn fb NEWLINE = some false
  own : ¬ (line = [] ∧ endsIn fb RETURN = some true)
  length_le : (withoutReturn line).length ≤ INT_MAX
  round : fb.used + line.length + 1 < UINT_RANGE
  canStore : ∀ u, fb.used ≤ u → u ≤ fb.used + line.length → u + 2 < UINT_RANGE →
    CanStore alloc fb u
  fillable : Fillable fb ∨ fb.skip + fb.used + line.length < (cells fb).length

/-- Without room for the next byte, `-1` is returned, or nothing. -/
theorem HasRead.full (h : HasRead alloc fb line fb') (hround : fb'.used + 2 < UINT_RANGE)
    (hfull : ¬ CanStore alloc fb' fb'.used) (c : UInt8) (input : List UInt8) :
    readLine alloc fb (line ++ c :: input) =
      (fbufExtend alloc fb' (uadd fb'.used 1)).map fun r => (r.1, -1, c :: input) := by
  have hzero : ∀ ext r, fbufExtend alloc fb' (uadd fb'.used 1) = some (ext, r) → r = 0 := by
    intro ext r hext
    by_contra hr
    exact hfull ((canStore_iff h.sound.toBacked hround).mpr ⟨ext, r, hext, hr⟩)
  rw [readLine, h.goesOn, readUntilNewline_full h.ends hzero]
  cases fbufExtend alloc fb' (uadd fb'.used 1) with
  | none => rfl
  | some r => rfl

/-- A byte from where their number goes round: there is no room for one more, but the sum with
the terminator is one. -/
theorem store_round (h : Sound fb) (hends : endsIn fb NEWLINE = some false)
    (hround : fb.used + 2 = UINT_RANGE) (hc : c ≠ NEWLINE) :
    ∃ fb', (∀ input, readUntilNewline alloc fb (c :: input) = readUntilNewline alloc fb' input) ∧
      endsIn fb' NEWLINE = some false ∧
      fbufExtend alloc fb' (uadd fb'.used 1) = some (fb', fb'.len) ∧ fb'.len ≠ 0 ∧
      fb'.len ≤ fb'.skip + fb'.used ∧ ∃ cs, fb'.data = some cs ∧ cs.length = fb'.len := by
  have hrange : UINT_RANGE = 2 ^ 32 := rfl
  obtain ⟨ext, r, hext, hr⟩ :=
    @exists_extend alloc fb h (by omega) fun hlt => absurd hround hlt.ne
  obtain ⟨cs, hpoke, hcs, hin, hlt, hcontents, -, -⟩ := store_byte h hext hr c
  have hcases := fbufExtend_cases h.toBacked hext
  have hranges := (hcases.sound_of_ne h hr).ranges
  have hused := hcases.sameContent.used
  have hlen := h.toBacked.length_contents
  have hsum : uadd (uadd (fb.used + 1) 1) 1 = 1 := by
    rw [uadd, uadd, (by omega : fb.used + 1 + 1 = UINT_RANGE), Nat.mod_self]
    decide
  refine ⟨{ ext with data := some cs, used := fb.used + 1 }, ?_, ?_, ?_, ?_, ?_, cs, rfl, hcs⟩
  · intro input
    have hgo := readUntilNewline_cons (by omega) hends hext hr hpoke input
    rwa [hused] at hgo
  · rw [endsIn_stored (by dsimp only; omega) hcontents (congrArg Nat.succ hlen.symm)]
    exact congrArg some (beq_false_of_ne hc)
  · have hranges' : Ranges { ext with data := some cs, used := fb.used + 1 } :=
      ⟨hranges.len_lt, hranges.maxlen_lt, hranges.minlen_lt, hranges.fastgrowsize_lt,
        hranges.slowgrowsize_lt⟩
    exact fbufExtend_room (by dsimp only; omega) hranges' (by rw [hsum]; dsimp only; omega)
  · show ext.len ≠ 0
    omega
  · show ext.len ≤ ext.skip + (fb.used + 1)
    omega

/-- So one more byte is written behind the storage. -/
theorem readUntilNewline_round (h : Sound fb) (hends : endsIn fb NEWLINE = some false)
    (hround : fb.used + 2 = UINT_RANGE) (hc : c ≠ NEWLINE) (b : UInt8) (input : List UInt8) :
    readUntilNewline alloc fb (c :: b :: input) = none := by
  obtain ⟨fb', hgo, hends', hroom, hlen, hout, cs, hdata, hcs⟩ :=
    @store_round alloc fb c h hends hround hc
  rw [hgo, readUntilNewline, hends']
  simp only [Option.bind_eq_bind, Option.bind_some, Bool.false_eq_true, if_false, hroom]
  rw [if_neg hlen, hdata,
    poke_eq_none (List.cons_ne_nil _ _) (by rw [List.length_singleton]; omega)]
  rfl

/-- The line is in the buffer, and only a carriage return at its end is left to be dropped. -/
structure ReadsLine (alloc : ℕ → Bool) (fb : FBuf) (line rest : List UInt8) (fb' : FBuf) :
    Prop where
  backed : Backed fb'
  used : fb'.used = fb.used + line.length
  contents : contents fb' = contents fb ++ line.map some
  inside : fb'.skip + fb'.used < fb'.len
  behind : behind fb' = some (some 0)
  run : readLine alloc fb (line ++ NEWLINE :: rest) = (do
    let fb₂ ← (if ← endsIn fb' RETURN then dropLast fb' else some fb')
    some (fb₂, toInt (usub fb₂.used fb.used), rest))

/-- It is if every byte can be stored. -/
theorem exists_readsLine (h : Sound fb) (hends : endsIn fb NEWLINE = some false)
    (hline : NEWLINE ∉ line) (hround : fb.used + line.length + 1 < UINT_RANGE)
    (hstore : ∀ u, fb.used ≤ u → u ≤ fb.used + line.length → u + 2 < UINT_RANGE →
      CanStore alloc fb u) (rest : List UInt8) :
    ∃ fb', ReadsLine alloc fb line rest fb' := by
  obtain ⟨fb', hread⟩ := exists_hasRead line h hends hline hround
    fun u hu hlt => hstore u hu hlt.le (by omega)
  have hused := hread.used
  obtain ⟨fb₁, fb₂, hnewline, hdrop, hbacked, hused', hcontents, hin, hbehind⟩ :=
    read_newline hread.sound hread.ends (by omega) (fun hlt =>
      (hread.canStore _ (by omega)).mpr (hstore _ (by omega) (by omega) hlt)) rest
  refine ⟨fb₂, hbacked, hused'.trans hused, hcontents.trans hread.contents, hin,
    hbehind, ?_⟩
  rw [readLine, hread.goesOn, hnewline]
  simp only [Option.bind_eq_bind, Option.bind_some, if_true, hdrop]

/-- The content of the buffer ends in the last byte of a line that is not empty. -/
theorem endsIn_line (h : Backed fb') (hused : fb'.used = fb.used + line.length)
    (hlen : (contents fb).length = fb.used)
    (hcontents : contents fb' = contents fb ++ line.map some) (hne : line ≠ []) (c : UInt8) :
    endsIn fb' c = some (line.getLast hne == c) := by
  have hsum := h.used_lt
  have hsplit : contents fb' =
      (contents fb ++ line.dropLast.map some) ++ [some (line.getLast hne)] := by
    rw [hcontents, List.append_assoc, ← List.map_singleton, ← List.map_append,
      List.dropLast_concat_getLast hne]
  refine endsIn_stored (by omega) hsplit ?_ c
  have := List.length_pos_iff.mpr hne
  rw [List.length_append, List.length_map, List.length_dropLast, hused, hlen]
  omega

theorem usub_add {a b : ℕ} (h : a + b < UINT_RANGE) : usub (a + b) a = b := by
  rw [usub_of_le (Nat.le_add_right a b) h, Nat.add_sub_cancel_left]

theorem toInt_eq_self {n : ℕ} (h : toInt n = n) (hn : n < UINT_RANGE) : n ≤ INT_MAX := by
  by_contra hlarge
  have := toInt_of_lt (Nat.not_le.mp hlarge) hn
  omega

/-- Then it is got as it should exactly if its end is its own. -/
theorem gets_iff_of_readsLine (h : Backed fb) (hends : endsIn fb NEWLINE = some false)
    (hround : fb.used + line.length + 1 < UINT_RANGE) (hread : ReadsLine alloc fb line rest fb') :
    Gets alloc readLine fb line rest ↔
      ¬ (line = [] ∧ endsIn fb RETURN = some true) ∧ (withoutReturn line).length ≤ INT_MAX := by
  obtain ⟨hbacked, hused, hcontents, hin, hbehind, hrun⟩ := hread
  have hlen := h.length_contents
  rw [Gets, hrun]
  by_cases hreturn : line.getLast? = some RETURN
  · have hne : line ≠ [] := by
      rintro rfl
      cases hreturn
    have hpos := List.length_pos_iff.mpr hne
    have hlast : line.getLast hne = RETURN := by
      rw [List.getLast?_eq_some_getLast hne] at hreturn
      exact Option.some.inj hreturn
    have hends' : endsIn fb' RETURN = some true := by
      rw [endsIn_line hbacked hused hlen hcontents hne, hlast]
      rfl
    obtain ⟨fb₂, hdrop, -, hused₂, hcontents₂, hin₂, hbehind₂⟩ :=
      exists_dropLast hbacked (by omega)
    have hcount : fb₂.used = fb.used + (line.length - 1) := by omega
    have hwithout : withoutReturn line = line.dropLast := if_pos hreturn
    have hshort : (withoutReturn line).length = line.length - 1 := by
      rw [hwithout, List.length_dropLast]
    have hkept : contents fb₂ = contents fb ++ (withoutReturn line).map some := by
      rw [hcontents₂, hcontents, hwithout, List.take_append, hlen, hused,
        List.take_of_length_le (by omega), List.map_dropLast, List.dropLast_eq_take,
        List.length_map]
      congr 2
      omega
    simp only [Option.bind_eq_bind, Option.bind_some, hends', if_true, hdrop]
    rw [hcount, usub_add (by omega), hshort]
    constructor
    · rintro ⟨fb₃, heq, -⟩
      have hr := congrArg (fun r => r.2.1) (Option.some.inj heq)
      exact ⟨fun hempty => hne hempty.1, toInt_eq_self hr (by omega)⟩
    · rintro ⟨-, hint⟩
      exact ⟨fb₂, by rw [toInt_of_le hint], hcount, hkept, hin₂, hbehind₂⟩
  have hwithout : withoutReturn line = line := if_neg hreturn
  obtain ⟨last, hends', hlast⟩ : ∃ last, endsIn fb' RETURN = some last ∧
      (last = true ↔ line = [] ∧ endsIn fb RETURN = some true) := by
    by_cases hnil : line = []
    · obtain ⟨last, hlast⟩ := exists_endsIn hends RETURN
      have hsum := h.used_lt
      have hsum' := hbacked.used_lt
      rw [hnil, List.map_nil, List.append_nil] at hcontents
      rw [hnil, List.length_nil, Nat.add_zero] at hused
      refine ⟨last, ?_, ?_⟩
      · rw [endsIn_congr hused hcontents (by omega) (by omega), hlast]
      · rw [hlast, and_iff_right hnil]
        exact (Option.some_inj).symm
    · refine ⟨_, endsIn_line hbacked hused hlen hcontents hnil RETURN, ?_⟩
      refine iff_of_false (fun heq => hreturn ?_) fun hempty => hnil hempty.1
      rw [List.getLast?_eq_some_getLast hnil, eq_of_beq heq]
  rw [hwithout, ← hlast]
  simp only [Option.bind_eq_bind, Option.bind_some, hends']
  cases last with
  | true =>
      obtain ⟨fb₂, hdrop, -, hused₂, -⟩ := exists_dropLast hbacked (used_of_endsIn hends')
      have hpos := used_of_endsIn hends'
      refine iff_of_false ?_ fun hfits => hfits.1 rfl
      rintro ⟨fb₃, heq, hcount, -⟩
      rw [if_pos rfl, hdrop] at heq
      obtain ⟨rfl, -⟩ := Prod.mk.inj (Option.some.inj heq)
      omega
  | false =>
      rw [if_neg Bool.false_ne_true, Option.bind_some, hused, usub_add (by omega)]
      constructor
      · rintro ⟨fb₃, heq, -⟩
        have hr := congrArg (fun r => r.2.1) (Option.some.inj heq)
        exact ⟨Bool.false_ne_true, toInt_eq_self hr (by omega)⟩
      · rintro ⟨-, hint⟩
        exact ⟨fb', by rw [toInt_of_le hint], hused, hcontents, hin, hbehind⟩

/-- The first bytes of a line, up to where one cannot be stored. -/
theorem exists_hasRead_take (h : Sound fb) (hends : endsIn fb NEWLINE = some false)
    (hline : NEWLINE ∉ line) (hk : k ≤ line.length) (hround : fb.used + k + 1 < UINT_RANGE)
    (hstore : ∀ u, fb.used ≤ u → u < fb.used + k → CanStore alloc fb u) :
    ∃ fb', HasRead alloc fb (line.take k) fb' ∧ fb'.used = fb.used + k := by
  have hlen : (line.take k).length = k := List.length_take_of_le hk
  obtain ⟨fb', hread⟩ := exists_hasRead (line.take k) h hends
    (fun hmem => hline (List.mem_of_mem_take hmem)) (by rw [hlen]; exact hround)
    (by rw [hlen]; exact hstore)
  exact ⟨fb', hread, by rw [hread.used, hlen]⟩

/-- A line that is got has room for each of its bytes. -/
theorem canStore_of_gets (h : Sound fb) (hends : endsIn fb NEWLINE = some false)
    (hline : NEWLINE ∉ line) (hgets : Gets alloc readLine fb line rest) :
    ∀ u, fb.used ≤ u → u ≤ fb.used + line.length → u + 2 < UINT_RANGE → CanStore alloc fb u := by
  intro u
  induction u using Nat.strong_induction_on with
  | h u ih =>
      intro hu hle hround
      by_contra hfull
      obtain ⟨fb', hread, hused⟩ := exists_hasRead_take h hends hline
        (by omega : u - fb.used ≤ line.length) (by omega) fun v hv hlt =>
          ih v (by omega) hv (by omega) (by omega)
      obtain ⟨c, input, hrest⟩ : ∃ c input,
          line.drop (u - fb.used) ++ NEWLINE :: rest = c :: input :=
        List.exists_cons_of_ne_nil (List.append_ne_nil_of_right_ne_nil _ (List.cons_ne_nil _ _))
      have hu' : fb'.used = u := by omega
      have hno : ¬ CanStore alloc fb' fb'.used := by
        have hcount := hread.used
        rw [hu', hread.canStore u (by omega)]
        exact hfull
      have hrun := hread.full (by omega) hno c input
      rw [← hrest, ← List.append_assoc, List.take_append_drop] at hrun
      obtain ⟨fb₂, hgot, -⟩ := hgets
      rw [hrun] at hgot
      obtain ⟨r, -, heq⟩ := Option.map_eq_some_iff.mp hgot
      have hminus : (-1 : ℤ) = ((withoutReturn line).length : ℤ) :=
        congrArg (fun r : FBuf × ℤ × List UInt8 => r.2.1) heq
      omega

/-- The numbers of its bytes do not go round. -/
theorem round_of_gets (h : Sound fb) (hends : endsIn fb NEWLINE = some false)
    (hline : NEWLINE ∉ line) (hgets : Gets alloc readLine fb line rest) :
    fb.used + line.length + 1 < UINT_RANGE := by
  have hrange : UINT_RANGE = 2 ^ 32 := rfl
  have hsum := h.toBacked.used_lt
  have hstore := canStore_of_gets h hends hline hgets
  by_contra hround
  obtain ⟨fb', hread, hused⟩ := exists_hasRead_take h hends hline
    (by omega : UINT_RANGE - 2 - fb.used ≤ line.length) (by omega) fun u hu hlt =>
      hstore u hu (by omega) (by omega)
  obtain ⟨c, line', hdrop⟩ : ∃ c line', line.drop (UINT_RANGE - 2 - fb.used) = c :: line' := by
    refine List.exists_cons_of_length_pos ?_
    rw [List.length_drop]
    omega
  obtain ⟨b, input, hrest⟩ : ∃ b input, line' ++ NEWLINE :: rest = b :: input :=
    List.exists_cons_of_ne_nil (List.append_ne_nil_of_right_ne_nil _ (List.cons_ne_nil _ _))
  have hc : c ≠ NEWLINE := by
    rintro rfl
    exact hline (List.mem_of_mem_drop (hdrop ▸ List.mem_cons_self))
  have hrun : readUntilNewline alloc fb (line ++ NEWLINE :: rest) = none := by
    rw [← List.take_append_drop (UINT_RANGE - 2 - fb.used) line, List.append_assoc, hread.goesOn,
      hdrop, List.cons_append, hrest]
    exact readUntilNewline_round hread.sound hread.ends (by omega) hc b input
  obtain ⟨fb₂, hgot, -⟩ := hgets
  rw [readLine, hrun] at hgot
  cases hgot

theorem endsIn_of_gets (hgets : Gets alloc readLine fb line rest) :
    endsIn fb NEWLINE = some false := by
  obtain ⟨fb', hrun, -⟩ := hgets
  cases hends : endsIn fb NEWLINE with
  | none =>
      rw [readLine, readUntilNewline_none hends] at hrun
      cases hrun
  | some last =>
      cases last with
      | false => rfl
      | true =>
          -- Nothing is consumed.
          rw [readLine, readUntilNewline_done hends] at hrun
          simp only [Option.bind_eq_bind, Option.bind_some, if_true] at hrun
          obtain ⟨fb₁, -, hrun⟩ := Option.bind_eq_some_iff.mp hrun
          obtain ⟨b, -, hrun⟩ := Option.bind_eq_some_iff.mp hrun
          obtain ⟨fb₂, -, heq⟩ := Option.bind_eq_some_iff.mp hrun
          have hrest : (line ++ NEWLINE :: rest).length = rest.length :=
            congrArg (fun r : FBuf × ℤ × List UInt8 => r.2.2.length) (Option.some.inj heq)
          rw [List.length_append, List.length_cons] at hrest
          omega

theorem gets_iff (h : Sound fb) (hline : NEWLINE ∉ line) (rest : List UInt8) :
    Gets alloc readLine fb line rest ↔ LineFits alloc fb line := by
  constructor
  · intro hgets
    have hends := endsIn_of_gets hgets
    have hstore := canStore_of_gets h hends hline hgets
    have hround := round_of_gets h hends hline hgets
    obtain ⟨fb', hread⟩ := exists_readsLine h hends hline hround hstore rest
    obtain ⟨hown, hint⟩ := (gets_iff_of_readsLine h.toBacked hends hround hread).mp hgets
    exact ⟨hends, hown, hint, hround, hstore, Or.inl (Or.inl h.whole)⟩
  · rintro ⟨hends, hown, hint, hround, hstore, -⟩
    obtain ⟨fb', hread⟩ := exists_readsLine h hends hline hround hstore rest
    exact (gets_iff_of_readsLine h.toBacked hends hround hread).mpr ⟨hown, hint⟩

end FBuf
end LibHL
