import LibHL.FBuf.Reachable

/-!
# Printing at most so many bytes

`fbuf_nprintf` makes room for `max` bytes, but offers all the room there is to `vsnprintf`, and
then adds the length of the whole string to the number of bytes.  A string that is longer than
`max` is not cut there, and may even be counted beyond the storage.
-/

namespace LibHL
namespace FBuf

open Storage

variable {alloc : ℕ → Bool} {fb fb' : FBuf} {str : List UInt8} {max n : ℕ}

/-- The first bytes of the string, at most `max`, are appended to the content, their number is
returned, and there is a terminator behind them. -/
def Appends (fb : FBuf) (max : ℕ) (str : List UInt8) (fb' : FBuf) (r : ℤ) : Prop :=
  r = (min max str.length : ℕ) ∧ fb'.used = fb.used + min max str.length ∧
    contents fb' = contents fb ++ (str.take max).map some ∧
    fb'.skip + fb'.used < fb'.len ∧ behind fb' = some (some 0)

/-- `fbuf_nprintf` writes inside the storage, and does that or fails. -/
def Prints (alloc : ℕ → Bool) (fb : FBuf) (max : ℕ) (str : List UInt8) : Prop :=
  ∃ fb' r, fbufNprintf alloc fb max str = some (fb', r) ∧ (r = -1 ∨ Appends fb max str fb' r)

/-- The string is not longer than `max`, and ends inside the storage where the buffer has room
already; if it gets another storage, then that is long enough, and if it does not get one, then
nothing is printed. -/
def PrintFits (alloc : ℕ → Bool) (fb : FBuf) (max n : ℕ) : Prop :=
  let size := fb.used + max + 1
  if UINT_RANGE ≤ size ∨ fb.skip + size ≤ fb.len then
    n ≤ max ∧ fb.skip + fb.used + n < (cells fb).length
  else if size ≤ fb.len then
    n ≤ max ∧ fb.used + n < (cells fb).length
  else
    Refuses fb size ∨ ∃ len, Requests fb size len ∧ (alloc len = false ∨ n ≤ max)

/-- The part of `fbuf_nprintf` after the extension. -/
def printBehind (fb : FBuf) (str : List UInt8) : Option (FBuf × ℤ) := do
  let fb ← vsnprintf fb str
  countPrinted fb str.length

theorem fbufNprintf_eq {r : ℕ}
    (hext : fbufExtend alloc fb (uadd fb.used (toUInt max)) = some (fb', r)) (hr : r ≠ 0) :
    fbufNprintf alloc fb max str = printBehind fb' str := by
  rw [fbufNprintf, hext]
  simp only [Option.bind_eq_bind, Option.bind_some]
  rw [if_neg hr]
  rfl

/-- A string that ends inside the storage is printed as a whole. -/
theorem printBehind_eq (h : Backed fb)
    (hin : fb.skip + fb.used + str.length < (cells fb).length) :
    ∃ fb', printBehind fb str = some (fb', (str.length : ℤ)) ∧
      fb'.used = fb.used + str.length ∧ contents fb' = contents fb ++ str.map some ∧
      fb'.skip + fb'.used < fb'.len ∧ behind fb' = some (some 0) := by
  have hle := h.cells_le
  have hlt := h.cells_lt
  have hlen := h.ranges.len_lt
  have hwhole : str.take (fb.len - (fb.skip + fb.used) - 1) = str :=
    List.take_of_length_le (by omega)
  have htext : (str.map some ++ [some 0]).length = str.length + 1 := by
    rw [List.length_append, List.length_map, List.length_singleton]
  obtain ⟨cs, hpoke, hcells, htake, -⟩ := poke_behind
    (List.append_ne_nil_of_right_ne_nil (str.map some) (List.cons_ne_nil (some 0) []))
    (by omega : fb.skip + fb.used + (str.map some ++ [some 0]).length ≤ (cells fb).length)
  have hprint : vsnprintf fb str = some { fb with data := some cs } := by
    rw [vsnprintf, uadd_of_lt (by omega), usub_of_le (by omega) hlen, if_neg (by omega), hwhole, hpoke]
    rfl
  have hcells' : (cells { fb with data := some cs, used := fb.used + str.length }).length =
      (cells fb).length := hcells
  obtain ⟨cs', hterm, -, hcontents, hbehind⟩ :=
    @terminate_eq { fb with data := some cs, used := fb.used + str.length }
      (hcells'.trans_lt hlt) (by rw [hcells']; dsimp only; omega)
  refine ⟨_, ?_, rfl, ?_, ?_, hbehind⟩
  · rw [printBehind, hprint]
    simp only [Option.bind_eq_bind, Option.bind_some]
    have hadd : uadd fb.used str.length = fb.used + str.length := uadd_of_lt (by omega)
    rw [countPrinted]
    dsimp only
    rw [hadd, hterm]
    rfl
  · refine hcontents.trans ((htake str.length (by omega)).trans ?_)
    rw [List.take_append_of_le_length (by rw [List.length_map]),
      List.take_of_length_le (by rw [List.length_map])]
  · show fb.skip + (fb.used + str.length) < fb.len
    omega

/-- Printing behind the content does what it should exactly if the string is not longer than
`max` and ends inside the storage. -/
theorem appends_iff (h : Backed fb) :
    (∃ fb' r, printBehind fb str = some (fb', r) ∧ (r = -1 ∨ Appends fb max str fb' r)) ↔
      str.length ≤ max ∧ fb.skip + fb.used + str.length < (cells fb).length := by
  constructor
  · rintro ⟨fb', r, hrun, happends⟩
    obtain ⟨printed, hprint, hrun⟩ := Option.bind_eq_some_iff.mp hrun
    obtain ⟨data, rfl, hcells, -⟩ := vsnprintf_eq_some hprint
    obtain ⟨ended, hterm, heq⟩ := Option.bind_eq_some_iff.mp hrun
    obtain ⟨rfl, rfl⟩ := Prod.mk.inj (Option.some.inj heq)
    obtain ⟨data', rfl, -, hin⟩ := terminate_eq_some hterm
    rcases happends with hfail | ⟨hcount, hused, -, hroom, -⟩
    · omega
    have hmin : str.length = min max str.length := Int.ofNat.inj hcount
    have hlen := h.ranges.len_lt
    dsimp only at hused hroom hin
    rw [hused, uadd_of_lt (by omega)] at hin
    have hcells' : fb.skip + (fb.used + min max str.length) < (cells fb).length :=
      hin.trans_eq hcells
    omega
  · rintro ⟨hmax, hin⟩
    obtain ⟨fb', hrun, hused, hcontents, hroom, hbehind⟩ := printBehind_eq h hin
    rw [hrun]
    refine ⟨fb', _, rfl, Or.inr ⟨?_, ?_, ?_, hroom, hbehind⟩⟩
    · rw [Nat.min_eq_right hmax]
    · rw [Nat.min_eq_right hmax, hused]
    · rw [hcontents, List.take_of_length_le hmax]

/-! ## When a string is printed -/

/-- All depends on where the extended buffer ends. -/
theorem prints_iff_of_extend {r : ℕ} (h : Backed fb)
    (hext : fbufExtend alloc fb (uadd fb.used (toUInt max)) = some (fb', r)) (hr : r ≠ 0) :
    Prints alloc fb max str ↔
      str.length ≤ max ∧ fb'.skip + fb'.used + str.length < (cells fb').length := by
  have hcases := fbufExtend_cases h hext
  obtain ⟨hused, hcontents⟩ := hcases.sameContent
  rw [← appends_iff (hcases.backed h), Prints, fbufNprintf_eq hext hr]
  simp only [Appends, hused, hcontents]

theorem prints_of_extend_fails (hext : fbufExtend alloc fb (uadd fb.used (toUInt max)) =
    some (fb', 0)) : Prints alloc fb max str := by
  refine ⟨fb', -1, ?_, Or.inl rfl⟩
  rw [fbufNprintf, hext]
  rfl

/-- `fbuf_nprintf` is right exactly under these conditions. -/
theorem prints_iff (hreach : Reachable AnyMemory fb) (hmax : max ≤ INT_MAX) (str : List UInt8) :
    Prints alloc fb max str ↔ PrintFits alloc fb max str.length := by
  have h := hreach.backed
  have hranges := h.ranges
  have hrange : UINT_RANGE = 2 ^ 32 := rfl
  have hint : INT_MAX = 2 ^ 31 - 1 := rfl
  have hle := h.le
  have hskip : fb.skip ≤ fb.len := (Nat.le_add_right _ _).trans hle
  have hmax' : toUInt max = max := toUInt_natCast (by omega)
  rw [PrintFits]
  by_cases hround : UINT_RANGE ≤ fb.used + max + 1
  · have hsum : uadd (uadd fb.used (toUInt max)) 1 = fb.used + max + 1 - UINT_RANGE := by
      rw [hmax', uadd, uadd, Nat.mod_add_mod, Nat.mod_eq_sub_mod hround, Nat.mod_eq_of_lt]
      have := h.used_lt
      omega
    have hext : fbufExtend alloc fb (uadd fb.used (toUInt max)) = _ :=
      fbufExtend_room hskip hranges (by rw [hsum]; omega)
    rw [if_pos (Or.inl hround), prints_iff_of_extend h hext (by omega)]
  have hsum : uadd (uadd fb.used (toUInt max)) 1 = fb.used + max + 1 := by
    rw [hmax', uadd_of_lt (by omega : fb.used + max < UINT_RANGE), uadd_of_lt (by omega)]
  cases hext : fbufExtend alloc fb (uadd fb.used (toUInt max)) with
  | none =>
      have hnever := mt (isSome_fbufExtend_iff alloc h).mpr
        (by rw [hext]; exact Bool.false_ne_true)
      rw [hsum, not_or, not_or] at hnever
      rw [if_neg (by omega), if_neg hnever.1]
      refine iff_of_false ?_ ?_
      · rintro ⟨fb', r, hrun, -⟩
        rw [fbufNprintf, hext] at hrun
        cases hrun
      · rintro (hover | ⟨len, hrequests, -⟩)
        · exact hnever.2.1 hover
        · exact hnever.2.2 hrequests.growsTo
  | some ext =>
      obtain ⟨fb', r⟩ := ext
      have hcases := fbufExtend_cases h hext
      rw [hsum] at hcases
      cases hcases with
      | room hroom => rw [if_pos (Or.inr hroom), prints_iff_of_extend h hext (by omega)]
      | @compacted cs hmore hfit hlen hcontents hbehind htail =>
          have hlen' : (cells { fb with data := some cs, skip := 0 }).length =
              (cells fb).length := hlen
          rw [if_neg (by omega), if_pos hfit, prints_iff_of_extend h hext (by omega), hlen']
          dsimp only
          rw [Nat.zero_add]
      | refused hmore hover =>
          rw [if_neg (by omega), if_neg (Nat.not_le.mpr hmore)]
          exact iff_of_true (prints_of_extend_fails hext) (Or.inl hover)
      | failed hmore hfits hrequests halloc =>
          rw [if_neg (by omega), if_neg (Nat.not_le.mpr hmore)]
          exact iff_of_true (prints_of_extend_fails hext)
            (Or.inr ⟨_, hrequests, Or.inl halloc⟩)
      | @reallocated _ cs hmore hfits hrequests halloc hused hlen hcontents hbehind htail =>
          have hsize := (hrequests.le hranges hfits).1
          have hlen' : (cells { fb with data := some cs, len := r, skip := 0 }).length = r := hlen
          rw [if_neg (by omega), if_neg (Nat.not_le.mpr hmore), or_iff_right hfits,
            prints_iff_of_extend h hext (by omega), hlen']
          constructor
          · exact fun hprints => ⟨r, hrequests, Or.inr hprints.1⟩
          · rintro ⟨len, hrequests', hfails | hshort⟩
            · rw [← hrequests.unique hrequests', halloc] at hfails
              cases hfails
            · refine ⟨hshort, ?_⟩
              dsimp only
              omega

/-- Five bytes into a buffer for at most three, of which one was asked for: the terminator is
written behind the storage. -/
theorem nprintf_leaves_storage :
    ¬ Prints (fun _ => true) (fbufCreate 3) 1 [97, 98, 99, 100, 101] := by
  rintro ⟨fb', r, hrun, -⟩
  have hnone : fbufNprintf (fun _ => true) (fbufCreate 3) (1 : ℕ) [97, 98, 99, 100, 101] =
    none := rfl
  rw [hnone] at hrun
  cases hrun

theorem prints_iff_create :
    Prints (fun _ => true) (fbufCreate 3) 1 [97, 98, 99, 100, 101] ↔
      PrintFits (fun _ => true) (fbufCreate 3) 1 [(97 : UInt8), 98, 99, 100, 101].length :=
  prints_iff (.create (by decide)) (by decide) _

end FBuf
end LibHL
