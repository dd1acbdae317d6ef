import LibHL.FBuf.ReadLine

/-!
# The end of a stream before the end of a line

`fbuf_read_ln` and `fbuf_fread_ln` write no terminator when the stream ends.  The byte behind the
content is then the one that the storage held there before, or, where the content was moved, one
that was left over from the content or the line itself.
-/

namespace LibHL
namespace FBuf

open Storage Circular

variable {alloc : ℕ → Bool} {fb fb' : FBuf} {c : UInt8} {t : List UInt8} {N : ℕ}

/-- What lies behind the content when these bytes were read into the storage that is there: as
long as the content is not moved, the byte that lies there; once it was moved, the byte that lies
as far from the start, where the bytes read before may have been written. -/
def staleByte (fb : FBuf) (t : List UInt8) : Option (Option UInt8) :=
  if fb.skip + (fb.used + t.length) < fb.len then
    (cells fb)[fb.skip + (fb.used + t.length)]?
  else
    (overwrite (cells fb) (fb.skip + fb.used)
      ((t.take (fb.len - 1 - fb.skip - fb.used)).map some))[fb.used + t.length]?

/-- The buffer when these bytes were read into the storage that is there. -/
structure Stays (fb : FBuf) (t : List UInt8) (fb' : FBuf) : Prop where
  sizes : fb' = { fb with data := fb'.data, used := fb'.used, skip := fb'.skip }
  skip : fb'.skip = if fb.skip + (fb.used + t.length) < fb.len then fb.skip else 0
  behind : behind fb' = staleByte fb t

/-- One byte into the storage that is there. -/
theorem exists_stays_singleton (alloc : ℕ → Bool) (h : Sound fb)
    (hends : endsIn fb NEWLINE = some false)
    (hc : c ≠ NEWLINE) (hin : fb.used + 2 ≤ fb.len) :
    ∃ fb', HasRead alloc fb [c] fb' ∧
      fb' = { fb with data := fb'.data, used := fb'.used, skip := fb'.skip } ∧
      if fb.skip + fb.used + 2 ≤ fb.len then
        fb'.skip = fb.skip ∧ cells fb' = overwrite (cells fb) (fb.skip + fb.used) [some c]
      else fb'.skip = 0 ∧ ∀ p, fb.used < p → (cells fb')[p]? = (cells fb)[p]? := by
  have hround : fb.used + 2 < UINT_RANGE := hin.trans_lt h.ranges.len_lt
  obtain ⟨ext, r, hext, hr⟩ := (@canStore_iff alloc fb h.toBacked hround).mp (Or.inl hin)
  obtain ⟨cs, hpoke, -, -, -, hcontents, hcells, hsound⟩ := store_byte h hext hr c
  have hcases := fbufExtend_cases h.toBacked hext
  rw [uadd_one_one hround] at hcases
  refine ⟨_, hasRead_singleton h hends hc hround hext hr hpoke hcontents (hsound hround), ?_⟩
  cases hcases with
  | room hroom =>
      refine ⟨rfl, ?_⟩
      rw [if_pos (by omega)]
      refine ⟨rfl, ?_⟩
      obtain ⟨cs', hdata, hcs', hlen⟩ := h.exists_cells (by omega)
      rw [hdata, poke_of_le (by rw [List.length_singleton]; omega)] at hpoke
      rw [hcs']
      exact (Option.some.inj (Option.some.inj hpoke)).symm
  | compacted hmore hfit hlen hcontents' hbehind htail =>
      refine ⟨rfl, ?_⟩
      rw [if_neg (by omega)]
      refine ⟨rfl, fun p hp => ?_⟩
      refine (hcells p (by dsimp only; omega)).trans ?_
      exact htail p hp
  | refused hmore hover => omega
  | failed hmore hfits hrequests halloc => omega
  | reallocated hmore hfits hrequests halloc hused hlen hcontents' hbehind htail => omega

theorem exists_stays : ∀ (t : List UInt8) {fb : FBuf}, Sound fb →
    endsIn fb NEWLINE = some false → NEWLINE ∉ t → fb.used + t.length < fb.len →
    ∃ fb', HasRead alloc fb t fb' ∧ Stays fb t fb' := by
  intro t
  induction t with
  | nil =>
      intro fb h hends _ hin
      have hcovers : fb.skip + fb.used < fb.len := by
        obtain ⟨cs, hdata, -⟩ := h.exists_cells (by omega)
        exact h.toBacked.covers (by rw [hdata]; rfl)
      refine ⟨fb, HasRead.nil h hends, rfl, ?_, ?_⟩
      · exact (if_pos hcovers).symm
      · exact (if_pos hcovers).symm
  | cons c t ih =>
      intro fb h hends hline hin
      rw [List.length_cons] at hin
      obtain ⟨hc, hline⟩ := not_or.mp (mt List.mem_cons.mpr hline)
      obtain ⟨fb₁, h₁, hsizes₁, hstep⟩ :=
        exists_stays_singleton alloc h hends (Ne.symm hc) (by omega)
      have hused := h₁.used
      have hlen : fb₁.len = fb.len := by rw [hsizes₁]
      rw [List.length_singleton] at hused
      obtain ⟨fb₂, h₂, hsizes₂, hskip, hbehind⟩ := ih h₁.sound h₁.ends hline (by omega)
      have hcount : fb₁.used + t.length = fb.used + (t.length + 1) := by omega
      have hskip₁ := hskip
      rw [hlen, hcount] at hskip₁
      refine ⟨fb₂, h₁.trans h₂, ?_, ?_, hbehind.trans ?_⟩
      · refine hsizes₂.trans ?_
        rw [hsizes₁]
      · rw [hskip₁, List.length_cons]
        by_cases hroom : fb.skip + fb.used + 2 ≤ fb.len
        · rw [if_pos hroom] at hstep
          rw [hstep.1]
        · rw [if_neg hroom] at hstep
          rw [hstep.1, ite_self, if_neg (by omega)]
      · rw [staleByte, staleByte, hlen, hcount, List.length_cons, hused]
        by_cases hroom : fb.skip + fb.used + 2 ≤ fb.len
        · rw [if_pos hroom] at hstep
          obtain ⟨cs, hdata, hcells, hwhole⟩ := h.exists_cells (by omega)
          have hfit : fb.skip + fb.used + [some c].length ≤ (cells fb).length := by
            rw [hcells, List.length_singleton]
            omega
          rw [hstep.1, hstep.2]
          by_cases hinside : fb.skip + (fb.used + (t.length + 1)) < fb.len
          · rw [if_pos hinside, if_pos hinside, getElem?_overwrite hfit,
              if_neg (by rw [List.length_singleton]; omega)]
          · have hfirst : fb.len - 1 - fb.skip - fb.used =
                fb.len - 1 - fb.skip - (fb.used + 1) + 1 := by omega
            have happend := overwrite_append
              ((t.take (fb.len - 1 - fb.skip - (fb.used + 1))).map some) hfit
            rw [List.length_singleton, Nat.add_assoc] at happend
            rw [if_neg hinside, if_neg hinside, hfirst, List.take_succ_cons, List.map_cons,
              happend, List.singleton_append]
        · rw [if_neg hroom] at hstep
          have hnone : fb.len - 1 - fb.skip - fb.used = 0 := by omega
          rw [hstep.1, if_pos (by omega), if_neg (by omega), Nat.zero_add,
            hstep.2 _ (by omega), hnone, List.take_zero, List.map_nil, overwrite_nil]

/-! ## The last extension -/

theorem terminated_iff (hdata : fb.data.isSome = true) :
    Terminated fb ↔ fb.skip + fb.used < fb.len ∧ behind fb = some (some 0) :=
  forall_prop_of_true hdata

theorem terminated_of_none (hdata : fb.data = none) : Terminated fb := by
  intro hsome
  rw [hdata] at hsome
  cases hsome

theorem Backed.terminated_iff (h : Backed fb) (hdata : fb.data.isSome = true) :
    Terminated fb ↔ behind fb = some (some 0) := by
  rw [FBuf.terminated_iff hdata, and_iff_right (h.covers hdata)]

/-- The byte behind the content stays what it was, but for the terminator that is written where
an empty content is moved to the start. -/
theorem Extended.terminated_iff {r : ℕ} (h : Backed fb) (hdata : fb.data.isSome = true)
    (hN : N ≤ fb.used + 2) (hext : Extended alloc fb N fb' r) :
    Terminated fb' ↔ behind fb = some (some 0) ∨
      fb.used = 0 ∧ fb.len < fb.skip + N ∧ N ≤ fb.len := by
  have hcovers := h.covers hdata
  cases hext with
  | room hroom =>
      rw [h.terminated_iff hdata, or_iff_left (by omega)]
  | refused hmore hover =>
      rw [h.terminated_iff hdata, or_iff_left (by omega)]
  | @compacted cs hmore hfit hlen hcontents hbehind htail =>
      have hcell : behind { fb with data := some cs, skip := 0 } = cs[fb.used]? := by
        rw [behind, cells_some rfl, Nat.zero_add]
      refine (FBuf.terminated_iff rfl).trans ?_
      rw [hcell, hbehind, and_iff_right (show 0 + fb.used < fb.len by omega)]
      by_cases hused : fb.used = 0
      · rw [if_pos hused]
        exact iff_of_true rfl (Or.inr ⟨hused, hmore, hfit⟩)
      · rw [if_neg hused, or_iff_left (fun hmoved => hused hmoved.1)]
  | @failed size hmore hfits hrequests halloc =>
      obtain ⟨hle, -⟩ := hrequests.le h.ranges hfits
      refine (@FBuf.terminated_iff { fb with len := size } hdata).trans ?_
      rw [and_iff_right (by dsimp only; omega), or_iff_left (by omega)]
      rfl
  | @reallocated _ cs hmore hfits hrequests halloc hused hlen hcontents hbehind htail =>
      have hskip : fb.skip = 0 := by omega
      have hsome : ¬ fb.data = none := fun hnone => by
        rw [hnone] at hdata
        cases hdata
      have hcell : behind { fb with data := some cs, len := r, skip := 0 } = cs[fb.used]? := by
        rw [behind, cells_some rfl, Nat.zero_add]
      refine (FBuf.terminated_iff rfl).trans ?_
      rw [hcell, hbehind, if_neg (not_not.mpr hskip), if_neg hsome,
        and_iff_right (show 0 + fb.used < r by omega), or_iff_left (by omega)]

/-! ## Storage that is new -/

/-- Nothing was written behind the content. -/
structure Fresh (fb : FBuf) : Prop where
  sound : Sound fb
  ends : endsIn fb NEWLINE = some false
  skip : fb.skip = 0
  data : fb.data.isSome = true
  free : ∀ p b, fb.used ≤ p → (cells fb)[p]? ≠ some (some b)

/-- It stays so when the storage is extended. -/
theorem Fresh.extended {r : ℕ} (h : Fresh fb) (hext : Extended alloc fb N fb' r) :
    fb'.skip = 0 ∧ fb'.data.isSome = true ∧
      ∀ p b, fb.used ≤ p → (cells fb')[p]? ≠ some (some b) := by
  have hcovers := h.sound.toBacked.covers h.data
  have hskip := h.skip
  cases hext with
  | room hroom => exact ⟨h.skip, h.data, h.free⟩
  | refused hmore hover => exact ⟨h.skip, h.data, h.free⟩
  | compacted hmore hfit hlen hcontents hbehind htail => omega
  | failed hmore hfits hrequests halloc => exact ⟨h.skip, h.data, h.free⟩
  | reallocated hmore hfits hrequests halloc hused hlen hcontents hbehind htail =>
      refine ⟨rfl, rfl, fun p b hp hcell => ?_⟩
      rcases Nat.eq_or_lt_of_le hp with rfl | hlt
      · have hsome : ¬ fb.data = none := fun hnone => by
          have hdata := h.data
          rw [hnone] at hdata
          cases hdata
        rw [cells_some rfl, hbehind, if_neg (not_not.mpr hskip), if_neg hsome, behind, hskip,
          Nat.zero_add] at hcell
        exact h.free fb.used b le_rfl hcell
      · exact h.free p b hp (htail p b hlt hcell)

theorem Fresh.not_terminated {r : ℕ} (h : Fresh fb) (hext : Extended alloc fb N fb' r) :
    ¬ Terminated fb' := by
  obtain ⟨hskip, hdata, hfree⟩ := h.extended hext
  intro hterm
  have hcell := (hterm hdata).2
  rw [behind, hskip, Nat.zero_add, hext.sameContent.used] at hcell
  exact hfree fb.used 0 le_rfl hcell

/-- A byte that is stored in front of cells that were not written. -/
theorem exists_fresh {r : ℕ} {ext : FBuf} (h : Sound fb) (hends : endsIn fb NEWLINE = some false)
    (hc : c ≠ NEWLINE) (hround : fb.used + 2 < UINT_RANGE)
    (hext : fbufExtend alloc fb (uadd fb.used 1) = some (ext, r)) (hr : r ≠ 0)
    (hskip : ext.skip = 0) (hfree : ∀ p b, fb.used < p → (cells ext)[p]? ≠ some (some b)) :
    ∃ fb', Fresh fb' ∧
      ∀ input, readUntilNewline alloc fb (c :: input) = readUntilNewline alloc fb' input := by
  obtain ⟨cs, hpoke, -, -, -, hcontents, hcells, hsound⟩ := store_byte h hext hr c
  have hread := hasRead_singleton h hends hc hround hext hr hpoke hcontents (hsound hround)
  refine ⟨_, ⟨hread.sound, hread.ends, hskip, rfl, fun p b hp hcell => ?_⟩, hread.goesOn⟩
  have hp' : fb.used < p := hp
  rw [cells_some rfl, hcells p (by omega)] at hcell
  exact hfree p b hp' hcell

/-- From where the number of bytes goes round, the terminator would lie behind the storage. -/
theorem reads_round (h : Sound fb) (hends : endsIn fb NEWLINE = some false)
    (hround : fb.used + 2 = UINT_RANGE) (hc : c ≠ NEWLINE) (t : List UInt8) {last : Bool}
    {rest : List UInt8} (hrun : readUntilNewline alloc fb (c :: t) = some (fb', last, rest)) :
    last = false ∧ ¬ Terminated fb' := by
  cases t with
  | cons b t =>
      rw [readUntilNewline_round h hends hround hc] at hrun
      cases hrun
  | nil =>
      obtain ⟨fb₁, hgo, hends₁, hroom, -, hout, cs, hdata, -⟩ :=
        @store_round alloc fb c h hends hround hc
      rw [hgo, readUntilNewline_nil hends₁, hroom] at hrun
      cases hrun
      refine ⟨rfl, fun hterm => ?_⟩
      have hin : fb₁.skip + fb₁.used < fb₁.len := (hterm (by rw [hdata]; rfl)).1
      omega

/-- Whatever is read into new storage, no terminator stands behind it. -/
theorem Fresh.reads : ∀ (t : List UInt8) {fb : FBuf}, Fresh fb → NEWLINE ∉ t →
    ∀ {fb' last rest}, readUntilNewline alloc fb t = some (fb', last, rest) →
      last = false ∧ ¬ Terminated fb' := by
  intro t
  induction t with
  | nil =>
      intro fb h _ fb' last rest hrun
      rw [readUntilNewline_nil h.ends] at hrun
      obtain ⟨⟨ext, r⟩, hext, heq⟩ := Option.map_eq_some_iff.mp hrun
      cases heq
      exact ⟨rfl, h.not_terminated (fbufExtend_cases h.sound.toBacked hext)⟩
  | cons c t ih =>
      intro fb h hline fb' last rest hrun
      obtain ⟨hc, hline⟩ := not_or.mp (mt List.mem_cons.mpr hline)
      have hsum := h.sound.toBacked.used_lt
      have hskip := h.skip
      by_cases hround : fb.used + 2 < UINT_RANGE
      · by_cases hfull : ∀ ext r, fbufExtend alloc fb (uadd fb.used 1) = some (ext, r) → r = 0
        · rw [readUntilNewline_full h.ends hfull] at hrun
          obtain ⟨⟨ext, r⟩, hext, heq⟩ := Option.map_eq_some_iff.mp hrun
          cases heq
          exact ⟨rfl, h.not_terminated (fbufExtend_cases h.sound.toBacked hext)⟩
        · simp only [not_forall] at hfull
          obtain ⟨ext, r, hext, hr⟩ := hfull
          obtain ⟨hskip', -, hfree⟩ := h.extended (fbufExtend_cases h.sound.toBacked hext)
          obtain ⟨fb₁, h₁, hgo⟩ := exists_fresh h.sound h.ends (Ne.symm hc) hround hext hr hskip'
            fun p b hp => hfree p b hp.le
          rw [hgo] at hrun
          exact ih h₁ hline hrun
      · exact reads_round h.sound h.ends (by omega) (Ne.symm hc) t hrun

/-! ## A stream that ends -/

/-- The stream ends before the line does: `-1` is returned and the buffer is left terminated. -/
def Ends (alloc : ℕ → Bool)
    (read : (ℕ → Bool) → FBuf → List UInt8 → Option (FBuf × ℤ × List UInt8)) (fb : FBuf)
    (t : List UInt8) : Prop :=
  ∃ fb' rest, read alloc fb t = some (fb', -1, rest) ∧ Terminated fb'

theorem ends_iff_of_run {rest : List UInt8}
    (hrun : readUntilNewline alloc fb t = some (fb', false, rest)) :
    Ends alloc readLine fb t ↔ Terminated fb' := by
  have hline : readLine alloc fb t = some (fb', -1, rest) := by
    rw [readLine, hrun]
    rfl
  rw [Ends, hline]
  constructor
  · rintro ⟨fb₂, rest', heq, hterm⟩
    obtain ⟨rfl, -⟩ := Prod.mk.inj (Option.some.inj heq)
    exact hterm
  · exact fun hterm => ⟨fb', rest, rfl, hterm⟩

theorem not_ends_of_run (hrun : ∀ {fb' last rest},
    readUntilNewline alloc fb t = some (fb', last, rest) → last = false ∧ ¬ Terminated fb') :
    ¬ Ends alloc readLine fb t := by
  rintro ⟨fb', rest, hline, hterm⟩
  cases hloop : readUntilNewline alloc fb t with
  | none =>
      rw [readLine, hloop] at hline
      cases hline
  | some r =>
      obtain ⟨fb₁, last, rest₁⟩ := r
      obtain ⟨rfl, hno⟩ := hrun hloop
      have hends : Ends alloc readLine fb t := ⟨fb', rest, hline, hterm⟩
      exact hno ((ends_iff_of_run hloop).mp hends)

theorem toInt_usub {a d : ℕ} (hpos : 0 < d) (hsmall : d ≤ INT_MAX) (hlt : a + d < UINT_RANGE) :
    toInt (usub a (a + d)) = -d := by
  have hrange : UINT_RANGE = 2 ^ 32 := rfl
  have hmax : INT_MAX = 2 ^ 31 - 1 := rfl
  have hdiff : usub a (a + d) = UINT_RANGE - d := by
    rw [usub, (by omega : a + (UINT_RANGE - (a + d)) = UINT_RANGE - d),
      Nat.mod_eq_of_lt (by omega)]
  rw [hdiff, toInt, if_neg (by omega)]
  omega

theorem ends_iff_of_newline (h : Backed fb) (hends : endsIn fb NEWLINE = some true) :
    Ends alloc readLine fb t ↔ endsIn { fb with used := fb.used - 1 } RETURN = some false := by
  have hused := used_of_endsIn hends
  have hsum := h.used_lt
  obtain ⟨fb₁, hdrop, hbacked, hused₁, hcontents, hin, hbehind⟩ := exists_dropLast h hused
  have hsum₁ := hbacked.used_lt
  have hsame : endsIn { fb with used := fb.used - 1 } RETURN = endsIn fb₁ RETURN := by
    refine endsIn_congr hused₁.symm (Eq.trans ?_ hcontents.symm) (by omega) (by dsimp only; omega) _
    show ((cells fb).drop fb.skip).take (fb.used - 1) = _
    rw [contents, List.take_take, Nat.min_eq_left (Nat.sub_le _ _)]
  have hrun : readLine alloc fb t = (do
      let fb₂ ← (if ← endsIn fb₁ RETURN then dropLast fb₁ else some fb₁)
      some (fb₂, toInt (usub fb₂.used fb.used), t)) := by
    rw [readLine, readUntilNewline_done hends]
    simp only [Option.bind_eq_bind, Option.bind_some, if_true, hdrop]
  rw [hsame, Ends, hrun]
  cases hlast : endsIn fb₁ RETURN with
  | none =>
      refine iff_of_false ?_ (Option.some_ne_none _).symm
      rintro ⟨fb', rest, heq, -⟩
      cases heq
  | some last =>
      cases last with
      | false =>
          simp only [Option.bind_eq_bind, Option.bind_some, Bool.false_eq_true, if_false]
          have hminus : toInt (usub fb₁.used (fb₁.used + 1)) = -1 :=
            toInt_usub Nat.one_pos (by decide) (by omega)
          rw [(by omega : fb.used = fb₁.used + 1), hminus]
          exact iff_of_true ⟨fb₁, t, rfl, fun _ => ⟨hin, hbehind⟩⟩ trivial
      | true =>
          obtain ⟨fb₂, hdrop₂, -, hused₂, -⟩ := exists_dropLast hbacked (used_of_endsIn hlast)
          simp only [Option.bind_eq_bind, Option.bind_some, if_true, hdrop₂]
          refine iff_of_false ?_ (by decide)
          rintro ⟨fb', rest, heq, -⟩
          have hr := congrArg (fun r => r.2.1) (Option.some.inj heq)
          have hminus : toInt (usub fb₂.used (fb₂.used + 2)) = -2 :=
            toInt_usub Nat.two_pos (by decide) (by omega)
          have hpos := used_of_endsIn hlast
          rw [(by omega : fb.used = fb₂.used + 2), hminus] at hr
          cases hr

theorem uadd_le (a b : ℕ) : uadd a b ≤ a + b := Nat.mod_le _ _

/-- What is read fits into the storage that is there. -/
theorem ends_iff_of_fits (h : Sound fb) (hends : endsIn fb NEWLINE = some false)
    (hline : NEWLINE ∉ t) (hin : fb.used + t.length < fb.len)
    (hN : N = uadd (uadd (fb.used + t.length) 1) 1) :
    Ends alloc readLine fb t ↔
      (staleByte fb t = some (some 0) ∨ t = [] ∧ fb.used = 0 ∧ fb.len < fb.skip + 2 ∧ 2 ≤ fb.len) ∧
        (N ≤ fb.len ∨ Refuses fb N ∨ GrowsTo fb N) := by
  obtain ⟨fb₁, hread, hsizes, hskip, hbehind⟩ := @exists_stays alloc t fb h hends hline hin
  have hused := hread.used
  have hlen : fb₁.len = fb.len := by rw [hsizes]
  have hrun : readUntilNewline alloc fb t =
      (fbufExtend alloc fb₁ (uadd fb₁.used 1)).map fun r => (r.1, false, []) := by
    have hgo := hread.goesOn []
    rw [List.append_nil] at hgo
    rw [hgo, readUntilNewline_nil hread.ends]
  have hdata : fb₁.data.isSome = true := by
    obtain ⟨cs, hdata, -⟩ := hread.sound.exists_cells (by omega)
    rw [hdata]
    rfl
  have hsome : (fbufExtend alloc fb₁ (uadd fb₁.used 1)).isSome = true ↔ _ :=
    isSome_fbufExtend_iff alloc hread.sound.toBacked
  have hcan : (N ≤ fb₁.len ∨ Refuses fb₁ N ∨ GrowsTo fb₁ N) ↔
      (N ≤ fb.len ∨ Refuses fb N ∨ GrowsTo fb N) := by
    rw [hsizes]
    exact Iff.rfl
  rw [hused, ← hN, hcan] at hsome
  rw [← hsome]
  cases hext : fbufExtend alloc fb₁ (uadd fb₁.used 1) with
  | none =>
      rw [hext] at hrun
      rw [hused] at hext
      rw [hext]
      refine iff_of_false ?_ fun hboth => Bool.false_ne_true hboth.2
      exact not_ends_of_run fun hloop => by
        rw [hrun] at hloop
        cases hloop
  | some r =>
      rw [hext] at hrun
      have hcases := fbufExtend_cases hread.sound.toBacked hext
      rw [hused] at hext
      rw [hext, and_iff_left Option.isSome_some, ends_iff_of_run hrun]
      rw [hused, ← hN] at hcases
      have hbound : N ≤ fb₁.used + 2 := by
        have := uadd_le (uadd (fb.used + t.length) 1) 1
        have := uadd_le (fb.used + t.length) 1
        omega
      rw [hcases.terminated_iff hread.sound.toBacked hdata hbound, hbehind]
      refine or_congr_right ?_
      have hnil : fb₁.used = 0 ↔ t = [] ∧ fb.used = 0 := by
        rw [hused, Nat.add_eq_zero_iff, List.length_eq_zero_iff, and_comm]
      rw [hnil, and_assoc, hlen]
      refine and_congr_right fun hempty => and_congr_right fun hzero => ?_
      have htwo : N = 2 := by
        rw [hN, hempty, hzero]
        rfl
      have hcovers := h.toBacked.covers (by
        obtain ⟨cs, hdata, -⟩ := h.exists_cells (by omega)
        rw [hdata]
        rfl)
      have hstill : fb₁.skip = fb.skip := by
        rw [hskip, hempty, hzero, if_pos (by rw [List.length_nil]; omega)]
      rw [htwo, hstill]

/-- What is read fills the storage. -/
theorem ends_iff_of_full (h : Sound fb) (hends : endsIn fb NEWLINE = some false)
    (hline : NEWLINE ∉ t) (hlen : fb.len ≠ 0) (hfull : fb.len ≤ fb.used + t.length) :
    Ends alloc readLine fb t ↔
      fb.len + 1 < UINT_RANGE ∧ staleByte fb (t.take (fb.len - 1 - fb.used)) = some (some 0) ∧
        (Refuses fb (fb.len + 1) ∨
          ∃ size, Requests fb (fb.len + 1) size ∧ alloc size = false) := by
  obtain ⟨cs, hdata, -⟩ := h.exists_cells hlen
  have hcovers := h.toBacked.covers (by rw [hdata]; rfl)
  have hcount : (t.take (fb.len - 1 - fb.used)).length = fb.len - 1 - fb.used :=
    List.length_take_of_le (by omega)
  obtain ⟨c, t', hdrop⟩ : ∃ c t', t.drop (fb.len - 1 - fb.used) = c :: t' := by
    refine List.exists_cons_of_length_pos ?_
    rw [List.length_drop]
    omega
  have hmem : ∀ b ∈ c :: t', b ≠ NEWLINE := by
    rintro b hb rfl
    exact hline (List.mem_of_mem_drop (hdrop ▸ hb))
  obtain ⟨fb₁, hread, hsizes, hskip, hbehind⟩ :=
    @exists_stays alloc (t.take (fb.len - 1 - fb.used)) fb h hends
      (fun hin => hline (List.mem_of_mem_take hin)) (by omega)
  have hused := hread.used
  have hlen₁ : fb₁.len = fb.len := by rw [hsizes]
  rw [hcount] at hused hskip
  have hskip₁ : fb₁.skip = 0 := by
    rw [hskip]
    split
    · omega
    · rfl
  have hrun : readUntilNewline alloc fb t = readUntilNewline alloc fb₁ (c :: t') := by
    have hgo := hread.goesOn (t.drop (fb.len - 1 - fb.used))
    rwa [List.take_append_drop, hdrop] at hgo
  have hdata₁ : fb₁.data.isSome = true := by
    obtain ⟨cs₁, hdata₁, -⟩ := hread.sound.exists_cells (by omega)
    rw [hdata₁]
    rfl
  have hc := hmem c List.mem_cons_self
  have hlt := h.ranges.len_lt
  by_cases hround : fb.len + 1 < UINT_RANGE
  swap
  · refine iff_of_false (not_ends_of_run fun hloop => ?_) fun hboth => hround hboth.1
    rw [hrun] at hloop
    exact reads_round hread.sound hread.ends (by omega) hc t' hloop
  rw [and_iff_right hround, ← hbehind]
  have hN : uadd (uadd fb₁.used 1) 1 = fb.len + 1 := by
    rw [uadd_one_one (by omega)]
    omega
  have hrefuses : Refuses fb₁ (fb.len + 1) ↔ Refuses fb (fb.len + 1) := by
    rw [hsizes]
    exact Iff.rfl
  have hrequests : ∀ size, Requests fb₁ (fb.len + 1) size ↔ Requests fb (fb.len + 1) size := by
    intro size
    rw [hsizes]
    exact Iff.rfl
  cases hext : fbufExtend alloc fb₁ (uadd fb₁.used 1) with
  | none =>
      have hnone : ¬ (fbufExtend alloc fb₁ (uadd fb₁.used 1)).isSome = true := by
        rw [hext]
        exact Bool.false_ne_true
      rw [isSome_fbufExtend_iff alloc hread.sound.toBacked, hN] at hnone
      refine iff_of_false ?_ ?_
      · rw [readUntilNewline_full hread.ends (by rw [hext]; exact fun _ _ heq => by cases heq),
          hext] at hrun
        exact not_ends_of_run fun hloop => by
          rw [hrun] at hloop
          cases hloop
      · rintro ⟨-, hover | ⟨size, hsize, -⟩⟩
        · exact hnone (Or.inr (Or.inl (hrefuses.mpr hover)))
        · exact hnone (Or.inr (Or.inr ((hrequests size).mpr hsize).growsTo))
  | some r =>
      obtain ⟨ext, r⟩ := r
      have hcases := fbufExtend_cases hread.sound.toBacked hext
      rw [hN] at hcases
      have hzero := hcases.eq_zero_iff (by omega)
      rw [hrefuses, exists_congr fun size => and_congr_left' (hrequests size)] at hzero
      rw [← hzero]
      by_cases hr : r = 0
      · rw [readUntilNewline_full hread.ends (by
          rw [hext]
          rintro fb₂ r₂ heq
          cases heq
          exact hr), hext] at hrun
        rw [ends_iff_of_run hrun, and_iff_left hr,
          hcases.terminated_iff hread.sound.toBacked hdata₁ (by omega), or_iff_left (by omega)]
      · refine iff_of_false (not_ends_of_run fun hloop => ?_) fun hboth => hr hboth.2
        obtain ⟨hskip', htail⟩ := hcases.grown (by omega) hr
        obtain ⟨fb₂, hfresh, hgo⟩ := exists_fresh hread.sound hread.ends hc (by omega) hext hr
          hskip' fun p b hp hcell => by
            have hcell₁ := htail p b hp hcell
            rw [List.getElem?_eq_none (by rw [hread.sound.whole]; omega)] at hcell₁
            cases hcell₁
        rw [hrun, hgo] at hloop
        exact hfresh.reads t' (fun hin => hmem _ (List.mem_cons_of_mem _ hin) rfl) hloop

/-- Without storage, nothing is read before there is some, which is sound. -/
theorem readUntilNewline_bare {r : ℕ} {ext : FBuf} (h : Backed fb) (hdata : fb.data = none)
    (hlen : fb.len < 2) (hext : fbufExtend alloc fb (uadd fb.used 1) = some (ext, r))
    (hr : r ≠ 0) :
    Sound ext ∧ ext.used = 0 ∧ contents ext = contents fb ∧ ext.skip = 0 ∧
      fbufExtend alloc ext (uadd ext.used 1) = some (ext, ext.len) ∧ 2 ≤ ext.len ∧
      (∀ p b, 0 < p → (cells ext)[p]? ≠ some (some b)) ∧
      (∀ u, CanStore alloc ext u ↔ CanStore alloc fb u) ∧
      ∀ (c : UInt8) (input : List UInt8),
        readUntilNewline alloc fb (c :: input) = readUntilNewline alloc ext (c :: input) := by
  obtain ⟨hused, -⟩ := h.empty hdata
  have hcases := fbufExtend_cases h hext
  have hN : uadd (uadd fb.used 1) 1 = 2 := by
    rw [hused]
    rfl
  rw [hN] at hcases
  have hbacked := hcases.backed h
  have hroom := hcases.room_of_ne h hr
  obtain ⟨hused', hcontents⟩ := hcases.sameContent
  obtain ⟨hskip, htail⟩ := hcases.grown hlen hr
  rw [hused] at hused' htail
  have hsound : Sound ext := by
    refine ⟨hbacked, ?_⟩
    cases hcases with
    | room hroom => omega
    | refused hmore hover => exact absurd rfl hr
    | compacted hmore hfit hlen hcontents hbehind htail => omega
    | failed hmore hfits hrequests halloc => exact absurd rfl hr
    | reallocated hmore hfits hrequests halloc hsize hlen hcontents hbehind htail => exact hlen
  have hagain : fbufExtend alloc ext (uadd ext.used 1) = some (ext, ext.len) := by
    refine fbufExtend_room (by omega) hbacked.ranges ?_
    rw [hused', ← hused, hN]
    exact hroom
  refine ⟨hsound, hused', hcontents, hskip, hagain, by omega, ?_, ?_, ?_⟩
  · intro p b hp hcell
    have hcell' := htail p b hp hcell
    rw [cells, hdata] at hcell'
    cases hcell'
  · intro u
    have hcan := hcases.canStore_iff (u := u) h.ranges hr (by omega)
    exact hcan
  · intro c input
    have hends : endsIn fb NEWLINE = some false := if_pos hused
    have hends' : endsIn ext NEWLINE = some false := if_pos hused'
    rw [readUntilNewline, readUntilNewline, hends, hends']
    simp only [Option.bind_eq_bind, Option.bind_some, Bool.false_eq_true, if_false, hext, hagain]
    rw [if_neg hr, if_neg (by omega : ¬ ext.len = 0)]

/-- There is no storage yet. -/
theorem ends_iff_of_none (h : Backed fb) (hline : NEWLINE ∉ t) (hdata : fb.data = none)
    (hlen : fb.len < 2) :
    Ends alloc readLine fb t ↔
      Refuses fb 2 ∨ ∃ size, Requests fb 2 size ∧ (t = [] ∨ alloc size = false) := by
  obtain ⟨hused, hskip⟩ := h.empty hdata
  have hends : endsIn fb NEWLINE = some false := by
    rw [endsIn, if_pos hused]
  have hN : uadd (uadd fb.used 1) 1 = 2 := by
    rw [hused]
    rfl
  cases hext : fbufExtend alloc fb (uadd fb.used 1) with
  | none =>
      have hnone : ¬ (fbufExtend alloc fb (uadd fb.used 1)).isSome = true := by
        rw [hext]
        exact Bool.false_ne_true
      rw [isSome_fbufExtend_iff alloc h, hN] at hnone
      refine iff_of_false (not_ends_of_run fun hloop => ?_) ?_
      · cases t with
        | nil =>
            rw [readUntilNewline_nil hends, hext] at hloop
            cases hloop
        | cons c t =>
            rw [readUntilNewline_full hends (by rw [hext]; exact fun _ _ heq => by cases heq),
              hext] at hloop
            cases hloop
      · rintro (hover | ⟨size, hsize, -⟩)
        · exact hnone (Or.inr (Or.inl hover))
        · exact hnone (Or.inr (Or.inr hsize.growsTo))
  | some r =>
      obtain ⟨ext, r⟩ := r
      have hcases := fbufExtend_cases h hext
      rw [hN] at hcases
      have hzero := hcases.eq_zero_iff (by omega)
      cases t with
      | nil =>
          have hrun : readUntilNewline alloc fb [] = some (ext, false, []) := by
            rw [readUntilNewline_nil hends, hext]
            rfl
          rw [ends_iff_of_run hrun]
          cases hcases with
          | room hroom => omega
          | compacted hmore hfit hlen hcontents hbehind htail => omega
          | refused hmore hover => exact iff_of_true (terminated_of_none hdata) (Or.inl hover)
          | failed hmore hfits hrequests halloc =>
              exact iff_of_true (terminated_of_none hdata)
                (Or.inr ⟨_, hrequests, Or.inl rfl⟩)
          | @reallocated _ cs hmore hfits hrequests halloc hsize hlen hcontents hbehind htail =>
              refine iff_of_true (fun _ => ⟨?_, ?_⟩) (Or.inr ⟨_, hrequests, Or.inl rfl⟩)
              · show 0 + fb.used < r
                omega
              · rw [behind, cells_some rfl]
                show cs[0 + fb.used]? = _
                rw [Nat.zero_add, hbehind, if_neg (not_not.mpr hskip), if_pos hdata]
      | cons c t =>
          obtain ⟨hc, hline⟩ := not_or.mp (mt List.mem_cons.mpr hline)
          have hfail : (Refuses fb 2 ∨
              ∃ size, Requests fb 2 size ∧ (c :: t = [] ∨ alloc size = false)) ↔ r = 0 := by
            rw [hzero]
            refine or_congr_right (exists_congr fun size => and_congr_right fun _ => ?_)
            exact or_iff_right (List.cons_ne_nil c t)
          rw [hfail]
          by_cases hr : r = 0
          · have hrun : readUntilNewline alloc fb (c :: t) = some (ext, false, c :: t) := by
              rw [readUntilNewline_full hends (by
                rw [hext]
                rintro fb₂ r₂ heq
                cases heq
                exact hr), hext]
              rfl
            rw [ends_iff_of_run hrun]
            cases hcases with
            | room hroom => omega
            | compacted hmore hfit hlen hcontents hbehind htail => omega
            | refused hmore hover => exact iff_of_true (terminated_of_none hdata) hr
            | failed hmore hfits hrequests halloc =>
                exact iff_of_true (terminated_of_none hdata) hr
            | reallocated hmore hfits hrequests halloc hsize hlen hcontents hbehind htail => omega
          · refine iff_of_false (not_ends_of_run fun hloop => ?_) hr
            obtain ⟨hsound, hused', -, hskip', hagain, htwo, hfree, -, hgo⟩ :=
              readUntilNewline_bare h hdata hlen hext hr
            obtain ⟨fb₂, hfresh, hgo₂⟩ := exists_fresh hsound
              (if_pos hused') (Ne.symm hc) (by rw [hused']; decide) hagain
              (by omega) hskip' (by rw [hused']; exact hfree)
            rw [hgo, hgo₂] at hloop
            exact hfresh.reads t hline hloop

instance decidableFillable (fb : FBuf) : Decidable (Fillable fb) :=
  inferInstanceAs (Decidable (_ ∨ _))

/-- What the storage holds behind the content is a terminator once the bytes were read, and the
loop comes to its end. -/
def BehindFits (alloc : ℕ → Bool) (fb : FBuf) (t : List UInt8) : Prop :=
  if ¬ Fillable fb then
    -- After a failed allocation, the bytes may not reach the length.
    fb.skip + fb.used + t.length ≤ (cells fb).length ∧
      Terminated { fb with used := fb.used + t.length }
  else if fb.data = none then
    Refuses fb 2 ∨ ∃ size, Requests fb 2 size ∧ (t = [] ∨ alloc size = false)
  else if fb.used + t.length < fb.len then
    -- The bytes fit, but room for one more is asked for.
    (staleByte fb t = some (some 0) ∨ t = [] ∧ fb.used = 0 ∧ fb.len < fb.skip + 2 ∧ 2 ≤ fb.len) ∧
      (uadd (uadd (fb.used + t.length) 1) 1 ≤ fb.len ∨
        Refuses fb (uadd (uadd (fb.used + t.length) 1) 1) ∨
        GrowsTo fb (uadd (uadd (fb.used + t.length) 1) 1))
  else
    -- Another storage would hold no terminator.
    fb.len + 1 < UINT_RANGE ∧ staleByte fb (t.take (fb.len - 1 - fb.used)) = some (some 0) ∧
      (Refuses fb (fb.len + 1) ∨ ∃ size, Requests fb (fb.len + 1) size ∧ alloc size = false)

/-- The content ends in a newline, which is dropped, but not in a carriage return before it; or
what is behind the content fits. -/
def EndFits (alloc : ℕ → Bool) (fb : FBuf) (t : List UInt8) : Prop :=
  endsIn fb NEWLINE = some true ∧ endsIn { fb with used := fb.used - 1 } RETURN = some false ∨
    endsIn fb NEWLINE = some false ∧ BehindFits alloc fb t

theorem ends_iff_of_behind (h : Backed fb)
    (hfits : endsIn fb NEWLINE = some false → (Ends alloc readLine fb t ↔ BehindFits alloc fb t)) :
    Ends alloc readLine fb t ↔ EndFits alloc fb t := by
  rw [EndFits]
  cases hends : endsIn fb NEWLINE with
  | none =>
      refine iff_of_false (not_ends_of_run fun hloop => ?_) ?_
      · rw [readUntilNewline_none hends] at hloop
        cases hloop
      · rintro (⟨heq, -⟩ | ⟨heq, -⟩)
        · cases heq
        · cases heq
  | some last =>
      cases last with
      | true =>
          rw [ends_iff_of_newline h hends, and_iff_right rfl, or_iff_left (fun hboth => by
            cases hboth.1)]
      | false =>
          rw [hfits hends, and_iff_right rfl, or_iff_right (fun hboth => by cases hboth.1)]

theorem ends_iff_of_sound (h : Sound fb) (hline : NEWLINE ∉ t) :
    Ends alloc readLine fb t ↔ EndFits alloc fb t := by
  refine ends_iff_of_behind h.toBacked fun hends => ?_
  have hfill : Fillable fb := Or.inl h.whole
  rw [BehindFits, if_neg (not_not.mpr hfill)]
  by_cases hdata : fb.data = none
  · have hlen : fb.len = 0 := by
      rw [← h.whole, cells, hdata]
      rfl
    rw [if_pos hdata, ends_iff_of_none h.toBacked hline hdata (by omega)]
  rw [if_neg hdata]
  by_cases hin : fb.used + t.length < fb.len
  · rw [if_pos hin]
    exact ends_iff_of_fits h hends hline hin rfl
  · rw [if_neg hin]
    have hlen : fb.len ≠ 0 := by
      have := h.toBacked.covers (Option.isSome_iff_ne_none.mpr hdata)
      omega
    exact ends_iff_of_full h hends hline hlen (by omega)

end FBuf
end LibHL
