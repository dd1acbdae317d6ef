import LibHL.FBuf.StreamEnd

/-!
# Reading into a storage that is too short

A failed allocation leaves a length that the storage does not have.  If just the last byte is
missing, then the storage is replaced before that byte is needed, and reading goes as it would
with it.  Otherwise, the bytes are written up to the end of the storage and then behind it.
-/

namespace LibHL
namespace FBuf

open Storage Circular Loop

variable {alloc : ℕ → Bool} {fb fb' : FBuf} {c : UInt8} {line rest t input : List UInt8} {M : ℕ}

/-! ## The last byte is missing -/

/-- The same buffer with one cell more. -/
structure Missing (fb fb' : FBuf) : Prop where
  data : fb.data.isSome = true
  skip : fb.skip = 0
  used_le : fb.used ≤ (cells fb).length
  length_lt : (cells fb).length < UINT_RANGE
  eq : fb' = { fb with data := some (cells fb ++ [none]) }

theorem Missing.cells_eq (h : Missing fb fb') : cells fb' = cells fb ++ [none] := by
  rw [h.eq]
  rfl

theorem Missing.getElem? (h : Missing fb fb') (p : ℕ) (hp : p < (cells fb).length) :
    (cells fb')[p]? = (cells fb)[p]? := by
  rw [h.cells_eq, List.getElem?_append_left hp]

theorem Missing.contents_eq (h : Missing fb fb') : contents fb' = contents fb := by
  have hused : fb'.used = fb.used := by rw [h.eq]
  have hskip : fb'.skip = 0 := by rw [h.eq]; exact h.skip
  rw [contents, contents, hused, hskip, h.skip, List.drop_zero, List.drop_zero, h.cells_eq,
    List.take_append_of_le_length h.used_le]

theorem Missing.zero_iff (h : Missing fb fb') (p : ℕ) :
    (cells fb')[p]? = some (some 0) ↔ (cells fb)[p]? = some (some 0) := by
  by_cases hp : p < (cells fb).length
  · rw [h.getElem? p hp]
  rw [h.cells_eq, List.getElem?_append_right (by omega),
    List.getElem?_eq_none (by omega : (cells fb).length ≤ p)]
  refine iff_of_false (fun hcell => ?_) fun hcell => by cases hcell
  obtain ⟨hzero, heq⟩ := List.getElem?_eq_some_iff.mp hcell
  rw [List.getElem_singleton] at heq
  cases heq

theorem Missing.endsIn_eq (h : Missing fb fb') (c : UInt8) : endsIn fb' c = endsIn fb c := by
  have hcontents := h.contents_eq
  obtain ⟨-, hskip, hused, hlt, heq⟩ := h
  have hused' : fb'.used = fb.used := by rw [heq]
  have hskip' : fb'.skip = fb.skip := by rw [heq]
  exact endsIn_congr hused' hcontents (by omega) (by omega) c

theorem Missing.ranges (h : Missing fb fb') (hranges : Ranges fb) : Ranges fb' := by
  rw [h.eq]
  exact ⟨hranges.len_lt, hranges.maxlen_lt, hranges.minlen_lt, hranges.fastgrowsize_lt,
    hranges.slowgrowsize_lt⟩

/-- One cell is written that both have. -/
theorem Missing.poke (h : Missing fb fb') {p : ℕ} (hp : p < (cells fb).length)
    (c : Option UInt8) :
    ∃ cs, poke fb.data p [c] = some (some cs) ∧ cs.length = (cells fb).length ∧
      poke fb'.data p [c] = some (some (cs ++ [none])) := by
  obtain ⟨cs, hdata⟩ := Option.isSome_iff_exists.mp h.data
  have hcells := cells_some hdata
  have hfit : p + [c].length ≤ cs.length := by
    rw [← hcells]
    exact hp
  refine ⟨overwrite cs p [c], ?_, ?_, ?_⟩
  · rw [hdata]
    exact poke_of_le hfit
  · rw [hcells]
    exact length_overwrite hfit
  · rw [h.eq, hcells]
    show Storage.poke (some (cs ++ [none])) p [c] = _
    rw [poke_of_le (hfit.trans (by rw [List.length_append]; exact Nat.le_add_right _ _)),
      overwrite_append_left _ hfit]

theorem Missing.resize (h : Missing fb fb') {size : ℕ} (hsize : (cells fb).length < size) :
    resize fb'.data size = resize fb.data size := by
  obtain ⟨cs, hdata⟩ := Option.isSome_iff_exists.mp h.data
  have hcells := cells_some hdata
  rw [hcells] at hsize
  rw [h.eq, hcells, hdata]
  show Storage.resize (some (cs ++ [none])) size = _
  have hlen : (cs ++ [(none : Option UInt8)]).length = cs.length + 1 := List.length_append
  rw [resize_of_le (by omega), resize_of_le hsize.le, hlen, List.append_assoc,
    (by omega : size - cs.length = size - (cs.length + 1) + 1), List.replicate_succ]
  rfl

theorem reallocate_resize {size : ℕ} (halloc : alloc size = true) (hskip : fb.skip = 0)
    (hdata : fb.data.isSome = true) :
    reallocate alloc fb size =
      some ({ fb with data := Storage.resize fb.data size, len := size }, size) := by
  have hsome : ¬ fb.data.isNone = true := by
    rw [Option.isNone_iff_eq_none]
    exact Option.isSome_iff_ne_none.mp hdata
  rw [reallocate, if_neg (by rw [halloc]; decide), if_neg (not_not.mpr hskip), if_neg hsome]

/-- Room for one more byte, in both. -/
theorem Missing.extend (h : Missing fb fb') (hranges : Ranges fb)
    (hlen : (cells fb).length + 1 = fb.len) (hround : fb.len + 1 < UINT_RANGE) :
    (fb.used < (cells fb).length ∧
      fbufExtend alloc fb (uadd fb.used 1) = some (fb, fb.len) ∧
      fbufExtend alloc fb' (uadd fb'.used 1) = some (fb', fb'.len)) ∨
    fbufExtend alloc fb' (uadd fb'.used 1) = fbufExtend alloc fb (uadd fb.used 1) ∨
    ∃ ext ext', fbufExtend alloc fb (uadd fb.used 1) = some (ext, 0) ∧
      fbufExtend alloc fb' (uadd fb'.used 1) = some (ext', 0) ∧ Missing ext ext' := by
  have hranges' := h.ranges hranges
  have hmissing := h
  obtain ⟨hdata, hskip, hused, hlt, rfl⟩ := h
  have hN : uadd (uadd fb.used 1) 1 = fb.used + 2 := uadd_one_one (by omega)
  by_cases hroom : fb.used < (cells fb).length
  · refine Or.inl ⟨hroom, fbufExtend_room (by omega) hranges ?_,
      fbufExtend_room (by dsimp only; omega) hranges' ?_⟩
    · rw [hN]
      omega
    · dsimp only
      rw [hN]
      omega
  have hmore : fb.len < uadd (uadd fb.used 1) 1 := by omega
  refine Or.inr ?_
  by_cases hover : Refuses fb (uadd (uadd fb.used 1) 1)
  · exact Or.inr ⟨_, _, fbufExtend_refused (by omega) hranges hmore hover,
      fbufExtend_refused (by dsimp only; omega) hranges' hmore hover, hmissing⟩
  by_cases hgrows : GrowsTo fb (uadd (uadd fb.used 1) 1)
  swap
  · left
    rw [fbufExtend_diverges (by omega) hranges hmore hover hgrows,
      fbufExtend_diverges (by dsimp only; omega) hranges' hmore hover hgrows]
  obtain ⟨size, hrequests⟩ := hgrows.requests
  rw [fbufExtend_requests (by omega) hranges hmore hover hrequests,
    fbufExtend_requests (by dsimp only; omega) hranges' hmore hover hrequests]
  cases halloc : alloc size with
  | false =>
      rw [reallocate_fails halloc, reallocate_fails halloc]
      exact Or.inr ⟨_, _, rfl, rfl, hdata, hskip, hused, hlt, rfl⟩
  | true =>
      left
      have hsize := (hrequests.le hranges hover).1
      rw [reallocate_resize halloc hskip hdata, ← hmissing.resize (by omega)]
      exact reallocate_resize halloc hskip rfl

/-- Either has the result of the other, but for the cell that is missing. -/
def Agree {β : Type} (r r' : Option (FBuf × β)) : Prop :=
  r' = r ∨ ∃ ext ext' x, r = some (ext, x) ∧ r' = some (ext', x) ∧ Missing ext ext'

theorem Missing.reads : ∀ (input : List UInt8) {fb fb' : FBuf}, Missing fb fb' → Ranges fb →
    (cells fb).length + 1 = fb.len → fb.len + 1 < UINT_RANGE →
    Agree (readUntilNewline alloc fb input) (readUntilNewline alloc fb' input) := by
  intro input
  induction input with
  | nil =>
      intro fb fb' h hranges hlen hround
      have hsame := h.endsIn_eq NEWLINE
      cases hends : endsIn fb NEWLINE with
      | none =>
          rw [hends] at hsame
          left
          rw [readUntilNewline_none hends, readUntilNewline_none hsame]
      | some last =>
          rw [hends] at hsame
          cases last with
          | true => exact Or.inr ⟨fb, fb', _, readUntilNewline_done hends _,
              readUntilNewline_done hsame _, h⟩
          | false =>
              rw [readUntilNewline_nil hends, readUntilNewline_nil hsame]
              rcases @Missing.extend alloc _ _ h hranges hlen hround with
                ⟨-, hext, hext'⟩ | heq | ⟨ext, ext', hext, hext', hmissing⟩
              · rw [hext, hext']
                exact Or.inr ⟨fb, fb', _, rfl, rfl, h⟩
              · exact Or.inl (by rw [heq])
              · rw [hext, hext']
                exact Or.inr ⟨ext, ext', _, rfl, rfl, hmissing⟩
  | cons c input ih =>
      intro fb fb' h hranges hlen hround
      have hsame := h.endsIn_eq NEWLINE
      cases hends : endsIn fb NEWLINE with
      | none =>
          rw [hends] at hsame
          left
          rw [readUntilNewline_none hends, readUntilNewline_none hsame]
      | some last =>
          rw [hends] at hsame
          cases last with
          | true => exact Or.inr ⟨fb, fb', _, readUntilNewline_done hends _,
              readUntilNewline_done hsame _, h⟩
          | false =>
              rw [readUntilNewline_step hends, readUntilNewline_step hsame]
              rcases @Missing.extend alloc _ _ h hranges hlen hround with
                ⟨hin, hext, hext'⟩ | heq | ⟨ext, ext', hext, hext', hmissing⟩
              · have hlt := h.length_lt
                have hskip := h.skip
                obtain ⟨cs, hpoke, hcs, hpoke'⟩ := h.poke (by omega : fb.skip + fb.used < _) (some c)
                have hused' : fb'.used = fb.used := by rw [h.eq]
                have hskip' : fb'.skip = fb.skip := by rw [h.eq]
                have hlen' : fb'.len = fb.len := by rw [h.eq]
                rw [hext, hext', Option.bind_some, Option.bind_some, hlen', if_neg (by omega),
                  if_neg (by omega), hskip', hused', hpoke, hpoke', Option.bind_some,
                  Option.bind_some]
                dsimp only
                rw [uadd_of_lt (by omega : fb.used + 1 < UINT_RANGE)]
                refine ih ⟨rfl, hskip, ?_, hcs.trans_lt hlt, ?_⟩ ⟨hranges.len_lt,
                  hranges.maxlen_lt, hranges.minlen_lt, hranges.fastgrowsize_lt,
                  hranges.slowgrowsize_lt⟩ ?_ hround
                · show fb.used + 1 ≤ cs.length
                  omega
                · rw [h.eq]
                  rfl
                · show cs.length + 1 = fb.len
                  omega
              · exact Or.inl (by rw [heq])
              · rw [hext, hext']
                exact Or.inr ⟨ext, ext', _, rfl, rfl, hmissing⟩

theorem Missing.dropLast (h : Missing fb fb') (hused : fb.used ≠ 0) :
    ∃ y y', FBuf.dropLast fb = some y ∧ FBuf.dropLast fb' = some y' ∧ Missing y y' := by
  have hle := h.used_le
  have hlt := h.length_lt
  have hskip := h.skip
  obtain ⟨cs, hpoke, hcs, hpoke'⟩ :=
    h.poke (by omega : fb.skip + (fb.used - 1) < _) (some 0)
  have hused' : fb'.used = fb.used := by rw [h.eq]
  have hskip' : fb'.skip = fb.skip := by rw [h.eq]
  refine ⟨{ fb with data := some cs, used := fb.used - 1 },
    { fb' with data := some (cs ++ [none]), used := fb.used - 1 }, ?_, ?_, rfl, hskip, ?_,
    hcs.trans_lt hlt, ?_⟩
  · rw [FBuf.dropLast, terminate, usub_of_le (by omega) (by omega)]
    dsimp only
    rw [uadd_of_lt (by omega), hpoke]
    rfl
  · rw [FBuf.dropLast, terminate, hused', usub_of_le (by omega) (by omega)]
    dsimp only
    rw [hskip', uadd_of_lt (by omega), hpoke']
    rfl
  · show fb.used - 1 ≤ cs.length
    omega
  · rw [h.eq]
    rfl

theorem Missing.readLine (h : Missing fb fb') (hranges : Ranges fb)
    (hlen : (cells fb).length + 1 = fb.len) (hround : fb.len + 1 < UINT_RANGE)
    (input : List UInt8) :
    Agree (FBuf.readLine alloc fb input) (FBuf.readLine alloc fb' input) := by
  have hused : fb'.used = fb.used := by rw [h.eq]
  rcases @Missing.reads alloc input _ _ h hranges hlen hround with
    heq | ⟨ext, ext', ⟨last, rest⟩, hrun, hrun', hmissing⟩
  · left
    rw [FBuf.readLine, FBuf.readLine, heq, hused]
  rw [FBuf.readLine, FBuf.readLine, hrun, hrun', hused]
  cases last with
  | false => exact Or.inr ⟨ext, ext', _, rfl, rfl, hmissing⟩
  | true =>
      obtain ⟨y, y', hdrop, hdrop', hy⟩ :=
        hmissing.dropLast (used_of_endsIn (endsIn_of_reads input hrun))
      have hsame := hy.endsIn_eq RETURN
      simp only [Option.bind_eq_bind, Option.bind_some, if_true, hdrop, hdrop', hsame]
      cases hends : endsIn y RETURN with
      | none => exact Or.inl rfl
      | some last =>
          cases last with
          | false =>
              have hused' : y'.used = y.used := by rw [hy.eq]
              refine Or.inr ⟨y, y', _, rfl, ?_, hy⟩
              simp only [Option.bind_some, Bool.false_eq_true, if_false, hused']
          | true =>
              obtain ⟨z, z', hdrop₂, hdrop₂', hz⟩ := hy.dropLast (used_of_endsIn hends)
              have hused' : z'.used = z.used := by rw [hz.eq]
              simp only [Option.bind_some, if_true, hdrop₂, hdrop₂', hused']
              exact Or.inr ⟨z, z', _, rfl, rfl, hz⟩

theorem Missing.gets_iff (h : Missing fb fb') (hranges : Ranges fb)
    (hlen : (cells fb).length + 1 = fb.len) (hround : fb.len + 1 < UINT_RANGE) :
    Gets alloc FBuf.readLine fb line rest ↔ Gets alloc FBuf.readLine fb' line rest := by
  have hused : fb'.used = fb.used := by rw [h.eq]
  rw [Gets, Gets, hused, h.contents_eq]
  rcases @Missing.readLine alloc _ _ h hranges hlen hround (line ++ NEWLINE :: rest) with
    heq | ⟨ext, ext', x, hrun, hrun', hmissing⟩
  · rw [heq]
  rw [hrun, hrun']
  have hused' : ext'.used = ext.used := by rw [hmissing.eq]
  have hskip' : ext'.skip = ext.skip := by rw [hmissing.eq]
  have hlen' : ext'.len = ext.len := by rw [hmissing.eq]
  constructor
  · rintro ⟨fb₂, heq, hcount, hcontents, hin, hbehind⟩
    obtain ⟨rfl, hx⟩ := Prod.mk.inj (Option.some.inj heq)
    refine ⟨ext', by rw [hx], hused'.trans hcount, hmissing.contents_eq.trans hcontents, ?_, ?_⟩
    · rw [hskip', hused', hlen']
      exact hin
    · rw [behind, hskip', hused', hmissing.zero_iff]
      exact hbehind
  · rintro ⟨fb₂, heq, hcount, hcontents, hin, hbehind⟩
    obtain ⟨rfl, hx⟩ := Prod.mk.inj (Option.some.inj heq)
    refine ⟨ext, by rw [hx], hused'.symm.trans hcount, hmissing.contents_eq.symm.trans hcontents,
      ?_, ?_⟩
    · rw [← hskip', ← hused', ← hlen']
      exact hin
    · rw [behind, hskip', hused', hmissing.zero_iff] at hbehind
      exact hbehind

theorem Missing.terminated_iff (h : Missing fb fb') : Terminated fb' ↔ Terminated fb := by
  have hdata' : fb'.data.isSome = true := by
    rw [h.eq]
    rfl
  have hused : fb'.used = fb.used := by rw [h.eq]
  have hskip : fb'.skip = fb.skip := by rw [h.eq]
  have hlen : fb'.len = fb.len := by rw [h.eq]
  rw [FBuf.terminated_iff hdata', FBuf.terminated_iff h.data, behind, behind, hused, hskip, hlen,
    h.zero_iff]

theorem Missing.ends_iff (h : Missing fb fb') (hranges : Ranges fb)
    (hlen : (cells fb).length + 1 = fb.len) (hround : fb.len + 1 < UINT_RANGE) :
    Ends alloc FBuf.readLine fb t ↔ Ends alloc FBuf.readLine fb' t := by
  rw [Ends, Ends]
  rcases @Missing.readLine alloc _ _ h hranges hlen hround t with
    heq | ⟨ext, ext', x, hrun, hrun', hmissing⟩
  · rw [heq]
  rw [hrun, hrun']
  constructor
  · rintro ⟨fb₂, rest, heq, hterm⟩
    obtain ⟨rfl, hx⟩ := Prod.mk.inj (Option.some.inj heq)
    exact ⟨ext', rest, by rw [hx], hmissing.terminated_iff.mpr hterm⟩
  · rintro ⟨fb₂, rest, heq, hterm⟩
    obtain ⟨rfl, hx⟩ := Prod.mk.inj (Option.some.inj heq)
    exact ⟨ext, rest, by rw [hx], hmissing.terminated_iff.mp hterm⟩

theorem lineFits_congr (hused : fb'.used = fb.used) (hends : ∀ c, endsIn fb' c = endsIn fb c)
    (hcan : ∀ u, CanStore alloc fb' u ↔ CanStore alloc fb u) (hfill : Fillable fb)
    (hfill' : Fillable fb') : LineFits alloc fb' line ↔ LineFits alloc fb line := by
  constructor
  · rintro ⟨hnewline, hown, hint, hround, hstore, -⟩
    rw [hused] at hround hstore
    rw [hends] at hnewline hown
    exact ⟨hnewline, hown, hint, hround,
      fun u hu hle hlt => (hcan u).mp (hstore u hu hle hlt), Or.inl hfill⟩
  · rintro ⟨hnewline, hown, hint, hround, hstore, -⟩
    rw [← hused] at hround hstore
    rw [← hends] at hnewline hown
    exact ⟨hnewline, hown, hint, hround,
      fun u hu hle hlt => (hcan u).mpr (hstore u hu hle hlt), Or.inl hfill'⟩

theorem Missing.staleByte_iff (h : Missing fb fb') (hin : fb.used + t.length < fb.len) :
    staleByte fb' t = some (some 0) ↔ staleByte fb t = some (some 0) := by
  have hused : fb'.used = fb.used := by rw [h.eq]
  have hskip : fb'.skip = fb.skip := by rw [h.eq]
  have hlen : fb'.len = fb.len := by rw [h.eq]
  have hstart := h.skip
  rw [staleByte, staleByte, hused, hskip, hlen, if_pos (by omega), if_pos (by omega), h.zero_iff]

theorem Missing.behindFits_iff (h : Missing fb fb') (hlen : (cells fb).length + 1 = fb.len)
    (hfill : Fillable fb) (hfill' : Fillable fb') :
    BehindFits alloc fb' t ↔ BehindFits alloc fb t := by
  have hused : fb'.used = fb.used := by rw [h.eq]
  have hlen' : fb'.len = fb.len := by rw [h.eq]
  have hle := h.used_le
  have hdata : ¬ fb.data = none := Option.isSome_iff_ne_none.mp h.data
  have hdata' : ¬ fb'.data = none := by
    rw [h.eq]
    exact Option.some_ne_none _
  have hrefuses : ∀ N, Refuses fb' N ↔ Refuses fb N := by
    intro N
    rw [h.eq]
    exact Iff.rfl
  have hgrows : ∀ N, GrowsTo fb' N ↔ GrowsTo fb N := by
    intro N
    rw [h.eq]
    exact Iff.rfl
  have hrequests : ∀ N size, Requests fb' N size ↔ Requests fb N size := by
    intro N size
    rw [h.eq]
    exact Iff.rfl
  rw [BehindFits, BehindFits, if_neg (not_not.mpr hfill), if_neg (not_not.mpr hfill'),
    if_neg hdata, if_neg hdata', hused, hlen']
  by_cases hin : fb.used + t.length < fb.len
  · rw [if_pos hin, if_pos hin, h.staleByte_iff hin, hrefuses, hgrows]
    have hskip : fb'.skip = fb.skip := by rw [h.eq]
    rw [hskip]
  · have htake : (t.take (fb.len - 1 - fb.used)).length = fb.len - 1 - fb.used :=
      List.length_take_of_le (by omega)
    rw [if_neg hin, if_neg hin, h.staleByte_iff (by omega), hrefuses,
      exists_congr fun size => and_congr_left' (hrequests _ size)]

/-! ## The storage ends before the length -/

/-- The buffer after these bytes were written into its storage. -/
structure ReadsInto (alloc : ℕ → Bool) (fb : FBuf) (t : List UInt8) (fb' : FBuf) : Prop where
  sizes : fb' = { fb with data := fb'.data, used := fb.used + t.length }
  data : fb'.data.isSome = fb.data.isSome
  cells : cells fb' = overwrite (cells fb) (fb.skip + fb.used) (t.map some)
  ends : endsIn fb' NEWLINE = some false
  goesOn : ∀ input, readUntilNewline alloc fb (t ++ input) = readUntilNewline alloc fb' input

theorem inside_le (h : Backed fb) : fb.skip + fb.used ≤ (cells fb).length := by
  rcases h.storage with ⟨-, hused, hskip⟩ | ⟨cs, -, hcells, hinside, -⟩
  · omega
  · rw [hcells]
    exact hinside.le

theorem length_contents_of_le (h : fb.skip + fb.used ≤ (cells fb).length) :
    (contents fb).length = fb.used := by
  rw [contents, List.length_take, List.length_drop]
  omega

theorem exists_readsInto : ∀ (t : List UInt8) {fb : FBuf}, Ranges fb →
    (cells fb).length < fb.len → endsIn fb NEWLINE = some false → NEWLINE ∉ t →
    fb.skip + fb.used + t.length ≤ (cells fb).length → ∃ fb', ReadsInto alloc fb t fb' := by
  intro t
  induction t with
  | nil =>
      intro fb _ _ hends _ _
      exact ⟨fb, rfl, rfl, (overwrite_nil _ _).symm, hends, fun _ => rfl⟩
  | cons c t ih =>
      intro fb hranges hshort hends hline hin
      obtain ⟨hc, hline⟩ := not_or.mp (mt List.mem_cons.mpr hline)
      rw [List.length_cons] at hin
      have hlt := hranges.len_lt
      cases hdata : fb.data with
      | none =>
          rw [cells, hdata, Option.getD_none, List.length_nil] at hin
          omega
      | some cs =>
          have hcells := cells_some hdata
          rw [hcells] at hshort hin
          have hfit : fb.skip + fb.used + [some c].length ≤ cs.length := by
            rw [List.length_singleton]
            omega
          have hlength := length_overwrite hfit
          have hroom : fbufExtend alloc fb (uadd fb.used 1) = some (fb, fb.len) := by
            refine fbufExtend_room (by omega) hranges ?_
            rw [uadd_one_one (by omega)]
            omega
          have hpoke : Storage.poke fb.data (fb.skip + fb.used) [some c] =
              some (some (overwrite cs (fb.skip + fb.used) [some c])) := by
            rw [hdata]
            exact poke_of_le hfit
          have hgo := readUntilNewline_cons (by omega) hends hroom (by omega) hpoke
          have hlast : endsIn { fb with
              data := some (overwrite cs (fb.skip + fb.used) [some c]),
              used := fb.used + 1 } NEWLINE = some false := by
            have hcontents : contents { fb with
                data := some (overwrite cs (fb.skip + fb.used) [some c]),
                used := fb.used + 1 } = contents fb ++ [some c] := by
              refine (take_drop_overwrite hfit (List.length_singleton (a := some c)).ge).trans ?_
              rw [contents, hcells]
              rfl
            rw [endsIn_stored (by dsimp only; omega) hcontents
              (by rw [length_contents_of_le (by rw [hcells]; omega)])]
            exact congrArg some (beq_false_of_ne (Ne.symm hc))
          obtain ⟨fb', hsizes, hsome, hcells', hends', hgo'⟩ := @ih { fb with
              data := some (overwrite cs (fb.skip + fb.used) [some c]),
              used := fb.used + 1 }
            ⟨hranges.len_lt, hranges.maxlen_lt, hranges.minlen_lt, hranges.fastgrowsize_lt,
              hranges.slowgrowsize_lt⟩ (by rw [cells_some rfl]; dsimp only; omega) hlast hline
            (by rw [cells_some rfl]; dsimp only; omega)
          refine ⟨fb', ?_, hsome.trans (by rw [hdata]; rfl), ?_, hends', ?_⟩
          · rw [List.length_cons]
            refine hsizes.trans ?_
            dsimp only
            rw [Nat.add_assoc fb.used 1, Nat.add_comm 1]
          · refine hcells'.trans ?_
            have happend := overwrite_append (t.map some) hfit
            rw [List.length_singleton] at happend
            rw [hcells]
            exact happend
          · intro input
            rw [List.cons_append, hgo, hgo']

theorem ReadsInto.keeps_sizes (h : ReadsInto alloc fb t fb') (hranges : Ranges fb) :
    fb'.used = fb.used + t.length ∧ fb'.skip = fb.skip ∧ fb'.len = fb.len ∧ Ranges fb' := by
  rw [h.sizes]
  exact ⟨rfl, rfl, rfl, hranges.len_lt, hranges.maxlen_lt, hranges.minlen_lt,
    hranges.fastgrowsize_lt, hranges.slowgrowsize_lt⟩

theorem ReadsInto.length_eq (h : ReadsInto alloc fb t fb')
    (hin : fb.skip + fb.used + t.length ≤ (FBuf.cells fb).length) :
    (FBuf.cells fb').length = (FBuf.cells fb).length := by
  rw [h.cells]
  exact length_overwrite (by rw [List.length_map]; exact hin)

/-- Behind the storage, there is either room according to the length, or what is left of the
content is moved with a byte that is not there. -/
theorem fbufExtend_behind (hranges : Ranges fb) (hshort : (cells fb).length < fb.len)
    (hfull : fb.skip + fb.used = (cells fb).length) (hnot : ¬ Fillable fb)
    (hused : fb.skip ≠ 0 → fb.used ≠ 0) :
    fbufExtend alloc fb (uadd fb.used 1) = some (fb, fb.len) ∨
      fbufExtend alloc fb (uadd fb.used 1) = none ∧ fb.skip ≠ 0 := by
  have hlt := hranges.len_lt
  by_cases hroom : fb.skip + uadd (uadd fb.used 1) 1 ≤ fb.len
  · exact Or.inl (fbufExtend_room (by omega) hranges hroom)
  have hround : fb.used + 2 < UINT_RANGE := by
    by_contra hround
    have hzero : uadd (uadd fb.used 1) 1 = 0 := by
      rw [uadd_of_lt (by omega : fb.used + 1 < UINT_RANGE), uadd,
        (by omega : fb.used + 1 + 1 = UINT_RANGE), Nat.mod_self]
    omega
  have hN := uadd_one_one hround
  have hskip : fb.skip ≠ 0 := by
    intro hzero
    exact hnot (Or.inr ⟨by omega, hzero, by omega⟩)
  refine Or.inr ⟨?_, hskip⟩
  have hcompact : compact fb = none := by
    rw [compact, if_pos (hused hskip), uadd_of_lt (by omega : fb.used + 1 < UINT_RANGE)]
    cases hpeek : peek fb.data fb.skip (fb.used + 1) with
    | none => rfl
    | some xs =>
        obtain ⟨cs, hdata, hin⟩ := (peek_eq_some hpeek).2 (Nat.succ_ne_zero _)
        rw [cells_some hdata] at hfull
        omega
  rw [fbufExtend_compact (by omega) hranges (by omega) (by omega), hcompact]
  rfl

/-- So nothing is read there. -/
theorem readUntilNewline_behind (hranges : Ranges fb) (hshort : (cells fb).length < fb.len)
    (hfull : fb.skip + fb.used = (cells fb).length) (hnot : ¬ Fillable fb)
    (hused : fb.skip ≠ 0 → fb.used ≠ 0) (hends : endsIn fb NEWLINE = some false) (c : UInt8)
    (input : List UInt8) : readUntilNewline alloc fb (c :: input) = none := by
  rw [readUntilNewline_step hends]
  rcases @fbufExtend_behind alloc fb hranges hshort hfull hnot hused with hext | ⟨hext, -⟩
  · rw [hext, Option.bind_some, if_neg (by omega)]
    cases hpoke : Storage.poke fb.data (fb.skip + fb.used) [some c] with
    | none => rfl
    | some data =>
        have hle := le_of_poke (List.cons_ne_nil _ _) hpoke
        rw [List.length_singleton, hfull] at hle
        exact absurd hle (Nat.not_succ_le_self _)
  · rw [hext]
    rfl

section Short

variable (h : Backed fb) (hnot : ¬ Fillable fb) (hends : endsIn fb NEWLINE = some false)

include h hnot

theorem length_lt_of_not_fillable : (cells fb).length < fb.len :=
  Nat.lt_of_le_of_ne h.cells_le fun heq => hnot (Or.inl heq)

include hends

/-- More bytes than the storage has room for are not read. -/
theorem readUntilNewline_past {pre : List UInt8} (hline : NEWLINE ∉ pre)
    (hpre : fb.skip + fb.used + pre.length = (cells fb).length) (c : UInt8)
    (input : List UInt8) : readUntilNewline alloc fb (pre ++ c :: input) = none := by
  have hshort := length_lt_of_not_fillable h hnot
  obtain ⟨fb₁, hread⟩ := @exists_readsInto alloc pre fb h.ranges hshort hends hline hpre.le
  have hlength := hread.length_eq hpre.le
  obtain ⟨hused, hskip, hlen, hranges⟩ := hread.keeps_sizes h.ranges
  rw [hread.goesOn]
  refine readUntilNewline_behind hranges (by omega) (by omega) ?_ ?_ hread.ends c input
  · rw [Fillable, hlength, hskip, hlen]
    exact hnot
  · intro hne
    rcases h.storage with ⟨-, -, hzero⟩ | ⟨cs, -, hcells, hinside, -⟩
    · omega
    · rw [hcells] at hpre
      omega

/-- A line that reaches behind the storage is not got, any other one is. -/
theorem exists_readsLine_short (hline : NEWLINE ∉ line)
    (hin : fb.skip + fb.used + line.length < (cells fb).length) (rest : List UInt8) :
    ∃ fb', ReadsLine alloc fb line rest fb' := by
  have hshort := length_lt_of_not_fillable h hnot
  have hlt := h.ranges.len_lt
  obtain ⟨fb₁, hread⟩ := @exists_readsInto alloc line fb h.ranges hshort hends hline hin.le
  have hlength := hread.length_eq hin.le
  obtain ⟨hused, hskip, hlen, hranges⟩ := hread.keeps_sizes h.ranges
  have hcontents : contents fb₁ = contents fb ++ line.map some := by
    have hfit : fb.skip + fb.used + (line.map some).length ≤ (cells fb).length := by
      rw [List.length_map]
      exact hin.le
    have htake := take_drop_overwrite hfit (le_refl (line.map some).length)
    rw [List.length_map] at htake
    rw [contents, hread.cells, hused, hskip, htake, contents,
      List.take_of_length_le (le_of_eq (List.length_map some))]
  -- There is room for the newline as well.
  have hsum : uadd (uadd fb₁.used 1) 1 = fb₁.used + 2 := uadd_one_one (by omega)
  have hext : fbufExtend alloc fb₁ (uadd fb₁.used 1) = some (fb₁, fb₁.len) :=
    fbufExtend_room (by omega) hranges (by omega)
  obtain ⟨cs, hpoke, hcs, htake, -⟩ := @poke_behind fb₁ [some NEWLINE] (List.cons_ne_nil _ _)
    (by rw [List.length_singleton]; omega)
  obtain ⟨fb₂, fb₃, hnewline, hdrop, hbacked, hused', hcontents', hinside, hbehind⟩ :=
    read_stored_newline hread.ends hext (by omega) hranges rfl hpoke (by omega) (by omega)
      (length_contents_of_le (by omega)) (htake 1 le_rfl) rest
  refine ⟨fb₃, hbacked, hused'.trans hused, hcontents'.trans hcontents, hinside, hbehind, ?_⟩
  rw [FBuf.readLine, hread.goesOn, hnewline]
  simp only [Option.bind_eq_bind, Option.bind_some, if_true, hdrop]

theorem gets_iff_of_short (hline : NEWLINE ∉ line) :
    Gets alloc FBuf.readLine fb line rest ↔ LineFits alloc fb line := by
  have hshort := length_lt_of_not_fillable h hnot
  have hlt := h.ranges.len_lt
  by_cases hin : fb.skip + fb.used + line.length < (cells fb).length
  · obtain ⟨fb', hread⟩ := @exists_readsLine_short alloc fb line h hnot hends hline hin rest
    rw [gets_iff_of_readsLine h hends (by omega) hread]
    constructor
    · rintro ⟨hown, hint⟩
      exact ⟨hends, hown, hint, by omega, fun u _ hle _ => Or.inl (by omega), Or.inr hin⟩
    · exact fun hfits => ⟨hfits.own, hfits.length_le⟩
  · refine iff_of_false ?_ fun hfits => hfits.fillable.elim hnot hin
    rintro ⟨fb', hrun, -⟩
    have hle := inside_le h
    have hpre : (line.take ((cells fb).length - fb.skip - fb.used)).length =
        (cells fb).length - fb.skip - fb.used := List.length_take_of_le (by omega)
    obtain ⟨c, input, hrest⟩ : ∃ c input,
        line.drop ((cells fb).length - fb.skip - fb.used) ++ NEWLINE :: rest = c :: input :=
      List.exists_cons_of_ne_nil (List.append_ne_nil_of_right_ne_nil _ (List.cons_ne_nil _ _))
    have hnone := @readUntilNewline_past alloc fb h hnot hends
      (line.take ((cells fb).length - fb.skip - fb.used)) (fun hmem =>
        hline (List.mem_of_mem_take hmem)) (by omega) c input
    rw [← hrest, ← List.append_assoc, List.take_append_drop] at hnone
    rw [FBuf.readLine, hnone] at hrun
    cases hrun

theorem ends_iff_of_short (hline : NEWLINE ∉ t) :
    Ends alloc FBuf.readLine fb t ↔ BehindFits alloc fb t := by
  have hshort := length_lt_of_not_fillable h hnot
  have hlt := h.ranges.len_lt
  have hle := inside_le h
  rw [BehindFits, if_pos hnot]
  by_cases hin : fb.skip + fb.used + t.length ≤ (cells fb).length
  swap
  · refine iff_of_false (not_ends_of_run fun hloop => ?_) fun hboth => hin hboth.1
    have hpre : (t.take ((cells fb).length - fb.skip - fb.used)).length =
        (cells fb).length - fb.skip - fb.used := List.length_take_of_le (by omega)
    obtain ⟨c, input, hrest⟩ : ∃ c input,
        t.drop ((cells fb).length - fb.skip - fb.used) = c :: input := by
      refine List.exists_cons_of_length_pos ?_
      rw [List.length_drop]
      omega
    have hnone := @readUntilNewline_past alloc fb h hnot hends
      (t.take ((cells fb).length - fb.skip - fb.used)) (fun hmem =>
        hline (List.mem_of_mem_take hmem)) (by omega) c input
    rw [← hrest, List.take_append_drop, hloop] at hnone
    cases hnone
  rw [and_iff_right hin]
  obtain ⟨fb₁, hread⟩ := @exists_readsInto alloc t fb h.ranges hshort hends hline hin
  have hlength := hread.length_eq hin
  obtain ⟨hused, hskip, hlen, hranges⟩ := hread.keeps_sizes h.ranges
  have hrun : readUntilNewline alloc fb t =
      (fbufExtend alloc fb₁ (uadd fb₁.used 1)).map fun r => (r.1, false, []) := by
    have hgo := hread.goesOn []
    rw [List.append_nil] at hgo
    rw [hgo, readUntilNewline_nil hread.ends]
  have hterm : Terminated fb₁ ↔ Terminated { fb with used := fb.used + t.length } := by
    by_cases hdata : fb.data.isSome = true
    · have hfit : fb.skip + fb.used + (t.map some).length ≤ (cells fb).length := by
        rw [List.length_map]
        exact hin
      have hcell : behind fb₁ = behind { fb with used := fb.used + t.length } := by
        rw [behind, hread.cells, getElem?_overwrite hfit, hskip, hused,
          if_neg (by rw [List.length_map]; omega)]
        rfl
      refine Iff.trans (FBuf.terminated_iff (hread.data.trans hdata))
        (Iff.trans ?_ (@FBuf.terminated_iff { fb with used := fb.used + t.length } hdata).symm)
      rw [hcell, hskip, hused, hlen]
    · have hnone : ∀ fb₂ : FBuf, fb₂.data.isSome = fb.data.isSome → Terminated fb₂ :=
        fun fb₂ hsame hsome => absurd (hsame.symm.trans hsome) hdata
      exact iff_of_true (hnone _ hread.data) (hnone _ rfl)
  have hext : fbufExtend alloc fb₁ (uadd fb₁.used 1) = some (fb₁, fb₁.len) ∨
      fbufExtend alloc fb₁ (uadd fb₁.used 1) = none ∧ fb₁.skip ≠ 0 ∧
        fb.skip + fb.used + t.length = (cells fb).length := by
    by_cases hroom : fb.skip + fb.used + t.length < (cells fb).length
    · have hsum : uadd (uadd fb₁.used 1) 1 = fb₁.used + 2 := uadd_one_one (by omega)
      exact Or.inl (fbufExtend_room (by omega) hranges (by omega))
    · have hfull : fb.skip + fb.used + t.length = (cells fb).length := by omega
      refine (@fbufExtend_behind alloc fb₁ hranges (by omega) (by omega) ?_ ?_).imp_right
        fun hnone => ⟨hnone.1, hnone.2, hfull⟩
      · rw [Fillable, hlength, hskip, hlen]
        exact hnot
      · intro hne
        rcases h.storage with ⟨-, -, hzero⟩ | ⟨cs, -, hcells, hinside, -⟩
        · omega
        · rw [hcells] at hfull
          omega
  rcases hext with hext | ⟨hext, hmoved, hfull⟩
  · rw [hext] at hrun
    rw [ends_iff_of_run hrun, hterm]
  · rw [hext] at hrun
    refine iff_of_false (not_ends_of_run fun hloop => ?_) fun hzero => ?_
    · rw [hrun] at hloop
      cases hloop
    · have hsome : fb.data.isSome = true := by
        rcases h.storage with ⟨-, -, hstart⟩ | ⟨cs, hdata, -⟩
        · omega
        · rw [hdata]
          rfl
      have hcell : (cells fb)[fb.skip + (fb.used + t.length)]? = some (some 0) :=
        (hzero hsome).2
      rw [List.getElem?_eq_none (by omega)] at hcell
      cases hcell

end Short

/-! ## Every buffer -/

/-- A storage that can be filled is as long as it should be, or lacks just one byte. -/
theorem sound_or_missing (h : Backed fb) (hfill : Fillable fb) (hdata : fb.data.isSome = true) :
    Sound fb ∨ ∃ fb', Missing fb fb' ∧ Sound fb' ∧ (cells fb).length + 1 = fb.len ∧
      fb.len + 1 < UINT_RANGE := by
  rcases hfill with hwhole | ⟨hlen, hskip, hround⟩
  · exact Or.inl ⟨h, hwhole⟩
  have hmissing : Missing fb { fb with data := some (cells fb ++ [none]) } :=
    ⟨hdata, hskip, by have := h.inside hdata; omega, h.cells_lt, rfl⟩
  have hlength : (cells fb ++ [(none : Option UInt8)]).length = fb.len :=
    List.length_append.trans hlen
  refine Or.inr ⟨_, hmissing, sound_of_inside (hmissing.ranges h.ranges) hlength ?_, hlen, hround⟩
  have hinside := h.inside hdata
  show fb.skip + fb.used < (cells fb ++ [(none : Option UInt8)]).length
  omega

/-- Without storage, the first byte gets some, or there is none. -/
theorem gets_iff_of_none (h : Backed fb) (hline : NEWLINE ∉ line) (hdata : fb.data = none)
    (hlen : fb.len < 2) (hfill : Fillable fb) :
    Gets alloc FBuf.readLine fb line rest ↔ LineFits alloc fb line := by
  obtain ⟨hused, -⟩ := h.empty hdata
  have hends : endsIn fb NEWLINE = some false := if_pos hused
  have hround : fb.used + 2 < UINT_RANGE := by
    rw [hused]
    decide
  obtain ⟨c, input, hinput⟩ : ∃ c input, line ++ NEWLINE :: rest = c :: input :=
    List.exists_cons_of_ne_nil (List.append_ne_nil_of_right_ne_nil _ (List.cons_ne_nil _ _))
  by_cases hstore : CanStore alloc fb fb.used
  · obtain ⟨ext, r, hext, hr⟩ := (canStore_iff h hround).mp hstore
    obtain ⟨hsound, hused', hcontents, -, -, -, -, hcan, hgo⟩ :=
      readUntilNewline_bare h hdata hlen hext hr
    have hsame : Gets alloc FBuf.readLine fb line rest ↔
        Gets alloc FBuf.readLine ext line rest := by
      rw [Gets, Gets, hinput, FBuf.readLine, FBuf.readLine, hgo, hused, hused', hcontents]
    rw [hsame, gets_iff hsound hline rest]
    refine lineFits_congr (hused'.trans hused.symm) (fun b => ?_) hcan hfill (Or.inl hsound.whole)
    rw [endsIn, endsIn, if_pos hused, if_pos hused']
  · refine iff_of_false ?_ fun hfits => hstore (hfits.canStore _ le_rfl (Nat.le_add_right _ _) hround)
    rintro ⟨fb', hrun, -⟩
    rw [hinput, FBuf.readLine, readUntilNewline_full hends fun ext r hext => by
      by_contra hr
      exact hstore ((canStore_iff h hround).mpr ⟨ext, r, hext, hr⟩)] at hrun
    cases hext : fbufExtend alloc fb (uadd fb.used 1) with
    | none =>
        rw [hext] at hrun
        cases hrun
    | some r =>
        rw [hext] at hrun
        have hminus : (-1 : ℤ) = ((withoutReturn line).length : ℤ) :=
          congrArg (fun r : FBuf × ℤ × List UInt8 => r.2.1) (Option.some.inj hrun)
        omega

theorem fillable_iff_of_none (hdata : fb.data = none) (hskip : fb.skip = 0) :
    Fillable fb ↔ fb.len < 2 := by
  have hrange : UINT_RANGE = 2 ^ 32 := rfl
  have hlength : (cells fb).length = 0 := by
    rw [cells, hdata]
    rfl
  rw [Fillable, hlength]
  omega

theorem gets_iff_of_backed (h : Backed fb) (hline : NEWLINE ∉ line) :
    Gets alloc FBuf.readLine fb line rest ↔ LineFits alloc fb line := by
  by_cases hfill : Fillable fb
  swap
  · constructor
    · exact fun hgets => (gets_iff_of_short h hfill (endsIn_of_gets hgets) hline).mp hgets
    · exact fun hfits => (gets_iff_of_short h hfill hfits.ends hline).mpr hfits
  by_cases hdata : fb.data = none
  · have hlen := (fillable_iff_of_none hdata (h.empty hdata).2).mp hfill
    exact gets_iff_of_none h hline hdata hlen hfill
  rcases sound_or_missing h hfill (Option.isSome_iff_ne_none.mpr hdata) with
    hsound | ⟨fb', hmissing, hsound, hlen, hround⟩
  · exact gets_iff hsound hline rest
  · rw [hmissing.gets_iff h.ranges hlen hround, gets_iff hsound hline rest]
    have hused : fb'.used = fb.used := by rw [hmissing.eq]
    refine lineFits_congr hused hmissing.endsIn_eq (fun u => ?_) hfill (Or.inl hsound.whole)
    rw [hmissing.eq]
    exact Iff.rfl

theorem ends_iff_of_backed (h : Backed fb) (hline : NEWLINE ∉ t) :
    Ends alloc FBuf.readLine fb t ↔ EndFits alloc fb t := by
  refine ends_iff_of_behind h fun hends => ?_
  by_cases hfill : Fillable fb
  swap
  · exact ends_iff_of_short h hfill hends hline
  by_cases hdata : fb.data = none
  · have hlen := (fillable_iff_of_none hdata (h.empty hdata).2).mp hfill
    rw [BehindFits, if_neg (not_not.mpr hfill), if_pos hdata]
    exact ends_iff_of_none h hline hdata hlen
  rcases sound_or_missing h hfill (Option.isSome_iff_ne_none.mpr hdata) with
    hsound | ⟨fb', hmissing, hsound, hlen, hround⟩
  · rw [ends_iff_of_sound hsound hline, EndFits, hends, or_iff_right (fun hboth => by
      cases hboth.1), and_iff_right rfl]
  · have hends' := hmissing.endsIn_eq NEWLINE
    rw [hmissing.ends_iff h.ranges hlen hround, ends_iff_of_sound hsound hline, EndFits, hends',
      hends, or_iff_right (fun hboth => by cases hboth.1), and_iff_right rfl,
      hmissing.behindFits_iff hlen hfill (Or.inl hsound.whole)]

/-- A line, and a stream that ends before its newline, are read as they should exactly under these
conditions. -/
theorem readsLines_iff
    {read : (ℕ → Bool) → FBuf → List UInt8 → Option (FBuf × ℤ × List UInt8)}
    (hread : read = fbufReadLn ∨ read = fbufFreadLn) (hreach : Reachable AnyMemory fb)
    (hline : NEWLINE ∉ line) (rest : List UInt8) :
    (Gets alloc read fb line rest ↔ LineFits alloc fb line) ∧
      (Ends alloc read fb line ↔ EndFits alloc fb line) := by
  have hgets : Gets alloc FBuf.readLine fb line rest ↔ LineFits alloc fb line :=
    gets_iff_of_backed hreach.backed hline
  have hends : Ends alloc FBuf.readLine fb line ↔ EndFits alloc fb line :=
    ends_iff_of_backed hreach.backed hline
  rcases hread with rfl | rfl
  · exact ⟨hgets, hends⟩
  · exact ⟨hgets, hends⟩

/-- A buffer for at most three bytes, with one byte. -/
def letterStored : FBuf :=
  { fbufCreate 3 with data := some [some 97, some 0, none, none], len := 4, used := 1 }

theorem readsLines_iff_letterStored :
    perform (fun _ => true) (fbufCreate 3) (.add [97]) = some letterStored ∧
      (Gets (fun _ => true) fbufReadLn letterStored [98] [99] ↔
        LineFits (fun _ => true) letterStored [98]) ∧
      (Ends (fun _ => true) fbufReadLn letterStored [98] ↔
        EndFits (fun _ => true) letterStored [98]) := by
  have hadd : perform (fun _ => true) (fbufCreate 3) (.add [97]) = some letterStored := rfl
  have hreach : Reachable AnyMemory letterStored :=
    .call (.create (by decide)) (fun _ => true) (.add [97]) trivial trivial hadd
  exact ⟨hadd, readsLines_iff (Or.inl rfl) hreach (by decide) [99]⟩

/-- A buffer for at most three bytes, with a byte and a newline. -/
def newlineEnded : FBuf :=
  { fbufCreate 3 with data := some [some 97, some NEWLINE, some 0, none], len := 4, used := 2 }

/-- Behind a newline no line is read, and a byte at the end of a stream gets no terminator. -/
theorem readLn_loses_line :
    perform (fun _ => true) (fbufCreate 3) (.add [97, NEWLINE]) = some newlineEnded ∧
      ¬ Gets (fun _ => true) fbufReadLn newlineEnded [98] [] ∧
      ¬ Ends (fun _ => true) fbufReadLn (fbufCreate 3) [98] := by
  refine ⟨rfl, ?_, ?_⟩
  · rintro ⟨fb', hrun, -⟩
    have hlost : (fbufReadLn (fun _ => true) newlineEnded [98, NEWLINE]).map
      (fun r => r.2.1) = some (-1) := by decide
    have hgot : (fbufReadLn (fun _ => true) newlineEnded [98, NEWLINE]).map
      (fun r => r.2.1) = some 1 := congrArg (Option.map fun r => r.2.1) hrun
    rw [hlost] at hgot
    cases hgot
  · rintro ⟨fb', rest, hrun, hterm⟩
    have hopen : fbufReadLn (fun _ => true) (fbufCreate 3) [98] =
      some ({ fbufCreate 3 with data := some [some 98, none, none, none], len := 4, used := 1 },
        -1, []) := rfl
    obtain rfl : _ = fb' := congrArg Prod.fst (Option.some.inj (hopen.symm.trans hrun))
    have hcell := (hterm rfl).2
    cases hcell

end FBuf
end LibHL
