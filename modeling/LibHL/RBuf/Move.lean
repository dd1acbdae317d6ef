import LibHL.RBuf.Reachable

/-!
# Moving bytes into another buffer

`rbuf_move` sets the number of stored bytes of the destination to the number of moved ones,
and takes the room behind the write offset of an empty destination for none at all.  So it
appends the bytes only to an empty buffer that is read from the beginning of its array, up to
one coincidence.
-/

namespace LibHL
namespace RBuf

open Circular

variable {rb src dst : RBuf} {bytes : List UInt8} {n : ℕ}

/-! ## What a move computes -/

/-- The number of bytes to move. -/
def movedSize (src dst : RBuf) (len : ℕ) : ℕ :=
  min len (min src.used.toNat (dst.size - dst.used).toNat)

theorem copySize_eq (hsrc : Ranges src) (hdst : Ranges dst) (len : ℕ) :
    copySize src dst len = movedSize src dst len := by
  have := hsrc.used_nonneg
  have := hdst.used_le
  rw [copySize, movedSize]
  split <;> split <;> omega

/-- The destination after `bytes` were moved. -/
def movedInto (dst : RBuf) (bytes : List UInt8) : RBuf :=
  let contiguous := contiguousSize dst
  if bytes.length ≤ contiguous then
    { dst with
      buf := overwrite dst.buf dst.wfx.toNat bytes
      wfx := dst.wfx + bytes.length
      used := bytes.length }
  else
    { dst with
      buf := overwrite (overwrite dst.buf dst.wfx.toNat (bytes.take contiguous.toNat)) 0
        (bytes.drop contiguous.toNat)
      wfx := bytes.length - contiguous
      used := bytes.length }

theorem contiguousSize_bounds (h : Ranges dst) (hw : dst.wfx ≤ dst.size) :
    0 ≤ contiguousSize dst ∧ dst.wfx + contiguousSize dst ≤ dst.size := by
  have := h.rfx_le
  rw [contiguousSize]
  split <;> omega

/-- Reading from a buffer whose offsets agree. -/
theorem rbufRead_front (h : Ranges src) (hagrees : Agrees src) (hn : (n : ℤ) ≤ src.used) :
    ∃ src', rbufRead src n = some (src', (n : ℤ), (contents src).take n) ∧
      Ranges src' ∧ Agrees src' ∧ src'.buf = src.buf ∧ src'.used = src.used - n ∧
      contents src' = (contents src).drop n := by
  have hmax := h.size_le
  have hlen := h.length_buf
  obtain ⟨used, rfx, wfx, heq, hd⟩ := (h.inBounds hagrees).exists_natState
  have hcontents : contents src = window src.buf rfx used := by
    rw [heq, contents_natState]
  have hused : src.used = used := by
    rw [heq]
  have hINT : INT_MAX = 2 ^ 31 - 1 := rfl
  obtain ⟨used', rfx', hrun, -, hwin⟩ := rbufRead_refines hd (by omega) src.mode n
  rw [← heq] at hrun
  have hk : min n used = n := by omega
  rw [hk, ← hcontents] at hrun
  obtain ⟨hranges, hkeeps, -⟩ := rbufRead_keeps h hrun
  obtain ⟨hn', -, -, -, hmoved⟩ := rbufRead_cases hrun
  refine ⟨_, hrun, hranges, hkeeps hagrees, rfl, ?_, ?_⟩
  · rcases hmoved with ⟨-, heq'⟩ | ⟨-, heq'⟩
    · rw [heq']
    · rw [heq']
  · rw [contents_natState, hwin, hcontents]

/-- A move is total if the write offset of the destination lies in its array and the offsets
of the source agree. -/
theorem rbufMove_eq (hsrc : Ranges src) (hagrees : Agrees src) (hdst : Ranges dst)
    (hw : dst.wfx ≤ dst.size) {len : ℕ} (hlen : len ≠ 0) :
    ∃ src', rbufMove src dst len =
        some (src', movedInto dst ((contents src).take (movedSize src dst len)),
          (movedSize src dst len : ℤ)) ∧
      Ranges src' ∧ Agrees src' ∧ src'.buf = src.buf ∧
      contents src' = (contents src).drop (movedSize src dst len) := by
  have hcopy := copySize_eq hsrc hdst len
  obtain ⟨-, -, hstored, hroom⟩ := copySize_bounds hsrc hdst (Int.natCast_nonneg len)
  rw [hcopy] at hstored hroom
  obtain ⟨hc₀, hc⟩ := contiguousSize_bounds hdst hw
  have hlength : ((contents src).take (movedSize src dst len)).length = movedSize src dst len := by
    rw [List.length_take, hsrc.length_contents]
    omega
  generalize movedSize src dst len = n at *
  obtain ⟨c, hc'⟩ : ∃ c : ℕ, contiguousSize dst = c := ⟨(contiguousSize dst).toNat, by omega⟩
  obtain ⟨w, hw'⟩ : ∃ w : ℕ, dst.wfx = w := ⟨dst.wfx.toNat, by have := hdst.wfx_nonneg; omega⟩
  have hsize := hdst.length_buf
  have hused := hdst.used_nonneg
  have hmax := hdst.size_le
  have hINT : INT_MAX = 2 ^ 31 - 1 := rfl
  have hlen' : ¬ (len : ℤ) = 0 := by omega
  rw [rbufMove, rbufCopyInternal, if_neg hlen', hcopy, movedInto]
  dsimp only
  rw [hlength, hc', hw', Int.toNat_natCast, Int.toNat_natCast]
  by_cases hstraight : (n : ℤ) ≤ c
  · obtain ⟨src', hread, hranges, hagrees', hbuf, -, hcontents⟩ :=
      rbufRead_front hsrc hagrees hstored
    have hstore : store dst.buf w ((contents src).take n) = some _ := store_natCast (by omega)
    have hadd : intAdd w n = some ((w + n : ℕ) : ℤ) := intAdd_natCast (by omega)
    refine ⟨src', ?_, hranges, hagrees', hbuf, hcontents⟩
    rw [if_pos hstraight, if_pos hstraight, copyStraight, if_pos rfl, hread, hw']
    simp only [Option.bind_eq_bind, Option.bind_some, hstore, hadd, Option.map_some]
    rw [Nat.cast_add]
  · obtain ⟨src₁, hread₁, hranges₁, hagrees₁, hbuf₁, hused₁, hcontents₁⟩ :=
      rbufRead_front hsrc hagrees (n := c) (by omega)
    have hrest : (n : ℤ) - c = ((n - c : ℕ) : ℤ) := by omega
    obtain ⟨src', hread, hranges, hagrees', hbuf, -, hcontents⟩ :=
      rbufRead_front hranges₁ hagrees₁ (n := n - c) (by omega)
    have hfront : ((contents src).take n).take c = (contents src).take c := by
      rw [List.take_take]
      congr 1
      omega
    have hback : ((contents src).take n).drop c = (contents src₁).take (n - c) := by
      rw [hcontents₁, List.drop_take]
    have hlen₁ : ((contents src).take c).length ≤ c := List.length_take_le c _
    have hlen₂ : ((contents src₁).take (n - c)).length ≤ n - c := List.length_take_le _ _
    have hstore₁ : store dst.buf w ((contents src).take c) = some _ := store_natCast (by omega)
    have hkept := (store_eq_some hstore₁).2.2
    have hstore₂ : store (overwrite dst.buf w ((contents src).take c)) ((0 : ℕ) : ℤ)
        ((contents src₁).take (n - c)) = some _ := store_natCast (by omega)
    refine ⟨src', ?_, hranges, hagrees', hbuf.trans hbuf₁, ?_⟩
    · rw [if_neg hstraight, if_neg hstraight, copySplit, if_pos rfl, hread₁, hw', hfront, hback]
      simp only [Option.bind_eq_bind, Option.bind_some, hstore₁, hrest, hread]
      rw [Int.natCast_zero] at hstore₂
      simp only [hstore₂, Option.bind_some, Option.map_some]
    · rw [hcontents, hcontents₁, List.drop_drop]
      congr 1
      omega

/-! ## When that appends them -/

/-- The bytes from the read offset to the end of the array happen to be the first bytes that
are moved, and the others end up behind them, at the beginning of the array. -/
structure AlreadyThere (dst : RBuf) (bytes : List UInt8) : Prop where
  wfx_lt : dst.wfx < dst.rfx
  middle : 2 * dst.rfx = dst.wfx + dst.size
  long : dst.rfx - dst.wfx < bytes.length
  same : dst.buf.drop dst.rfx.toNat = bytes.take (dst.size - dst.rfx).toNat

/-- Nothing is stored, and nothing moved or the array is read from its beginning. -/
def TakesBytes (dst : RBuf) (bytes : List UInt8) : Prop :=
  dst.used = 0 ∧
    (Agrees dst ∧ (bytes = [] ∨ dst.rfx = 0 ∨ dst.rfx = dst.size) ∨ AlreadyThere dst bytes)

/-- `bytes` are appended, and the offsets agree. -/
def Appends (dst : RBuf) (bytes : List UInt8) : Prop :=
  contents (movedInto dst bytes) = contents dst ++ bytes ∧ Agrees (movedInto dst bytes)

theorem movedInto_straight (h : (bytes.length : ℤ) ≤ contiguousSize dst) :
    movedInto dst bytes =
      { dst with
        buf := overwrite dst.buf dst.wfx.toNat bytes
        wfx := dst.wfx + bytes.length
        used := bytes.length } :=
  if_pos h

theorem movedInto_split (h : contiguousSize dst < bytes.length) :
    movedInto dst bytes =
      { dst with
        buf := overwrite (overwrite dst.buf dst.wfx.toNat
          (bytes.take (contiguousSize dst).toNat)) 0 (bytes.drop (contiguousSize dst).toNat)
        wfx := bytes.length - contiguousSize dst
        used := bytes.length } :=
  if_neg (Int.not_le.mpr h)

theorem used_movedInto (dst : RBuf) (bytes : List UInt8) :
    (movedInto dst bytes).used = bytes.length := by
  by_cases h : (bytes.length : ℤ) ≤ contiguousSize dst
  · rw [movedInto_straight h]
  · rw [movedInto_split (Int.not_le.mp h)]

theorem length_movedInto (h : Ranges dst) (hw : dst.wfx ≤ dst.size)
    (hroom : (bytes.length : ℤ) ≤ dst.size - dst.used) :
    (movedInto dst bytes).buf.length = dst.buf.length := by
  obtain ⟨hc₀, hc⟩ := contiguousSize_bounds h hw
  have := h.length_buf
  have := h.wfx_nonneg
  have := h.used_nonneg
  by_cases hstraight : (bytes.length : ℤ) ≤ contiguousSize dst
  · rw [movedInto_straight hstraight]
    exact length_overwrite (by omega)
  · have hfront : (bytes.take (contiguousSize dst).toNat).length ≤ (contiguousSize dst).toNat :=
      List.length_take_le _ _
    have hfirst : (overwrite dst.buf dst.wfx.toNat
        (bytes.take (contiguousSize dst).toNat)).length = dst.buf.length :=
      length_overwrite (by omega)
    rw [movedInto_split (Int.not_le.mp hstraight)]
    refine (length_overwrite ?_).trans hfirst
    rw [hfirst, List.length_drop]
    omega

theorem contents_of_used_zero (h : dst.used = 0) : contents dst = [] := by
  rw [contents, h]
  exact window_zero _ _

theorem appends_nil (h : Ranges dst) (hagrees : Agrees dst) (hused : dst.used = 0) :
    Appends dst [] := by
  have hsame : movedInto dst [] = { dst with used := 0 } := by
    have hstraight : (([] : List UInt8).length : ℤ) ≤ contiguousSize dst :=
      (contiguousSize_bounds h hagrees.wfx_le).1
    rw [movedInto_straight hstraight, overwrite_nil]
    simp
  rw [Appends, hsame, contents_of_used_zero hused]
  refine ⟨contents_of_used_zero rfl, ?_, hagrees.wfx_le⟩
  have := hagrees.offsets
  rwa [hused] at this

/-- A destination that takes the bytes at the beginning of its array. -/
theorem appends_of_zero (h : Ranges dst) (hagrees : Agrees dst) (hused : dst.used = 0)
    (hroom : (bytes.length : ℤ) ≤ dst.size) (hrfx : dst.rfx = 0 ∨ dst.rfx = dst.size) :
    Appends dst bytes := by
  by_cases hnil : bytes = []
  · rw [hnil]
    exact appends_nil h hagrees hused
  have hpos : 0 < bytes.length := List.length_pos_of_ne_nil hnil
  have hsize := h.size_pos
  have hlen := h.length_buf
  have hwfx : dst.wfx = 0 ∨ dst.wfx = dst.size := by
    have hw := hagrees.wfx_le
    have hw₀ := h.wfx_nonneg
    have hturns := turns_of_dvd hsize hagrees.offsets.dvd (by omega) (by omega)
    omega
  have hmoved : movedInto dst bytes =
      { dst with
        buf := overwrite dst.buf 0 bytes
        wfx := bytes.length
        used := bytes.length } := by
    by_cases hfree : dst.rfx = dst.size ∧ dst.wfx = 0
    · have hc : contiguousSize dst = dst.size := by
        rw [contiguousSize, if_neg (by omega)]
        omega
      rw [movedInto_straight (by omega), hfree.2, Int.toNat_zero, Int.zero_add]
    · have hc : contiguousSize dst = 0 := by
        rw [contiguousSize]
        split <;> omega
      rw [movedInto_split (by omega), hc, Int.toNat_zero, List.take_zero, overwrite_nil,
        List.drop_zero, Int.sub_zero]
  have hstart : dst.rfx.toNat ≡ 0 [MOD dst.buf.length] := by
    rcases hrfx with hrfx | hrfx
    · rw [hrfx]
      rfl
    · have hlast : dst.rfx.toNat = dst.buf.length := by omega
      rw [hlast, Nat.modEq_zero_iff_dvd]
  rw [Appends, hmoved, contents_of_used_zero hused, List.nil_append]
  refine ⟨?_, ?_, hroom⟩
  · rw [contents]
    dsimp only
    rw [Int.toNat_natCast]
    exact window_overwrite_zero hstart (by omega)
  · rcases hrfx with hrfx | hrfx
    · rw [hrfx, Int.zero_add]
    · rw [hrfx]
      exact Int.add_modEq_left

theorem contiguousSize_middle (hlt : dst.wfx < dst.rfx) (hmiddle : 2 * dst.rfx = dst.wfx + dst.size) :
    contiguousSize dst = dst.size - dst.rfx := by
  rw [contiguousSize, if_neg (by omega)]
  omega

/-- With the read offset half-way between the write offset and the end of the array, the
first bytes are written before it and the others to the beginning. -/
theorem contents_movedInto_middle (h : Ranges dst) (hlt : dst.wfx < dst.rfx)
    (hmiddle : 2 * dst.rfx = dst.wfx + dst.size) (hlong : dst.rfx - dst.wfx < bytes.length)
    (hroom : (bytes.length : ℤ) ≤ dst.size) :
    contents (movedInto dst bytes) =
      dst.buf.drop dst.rfx.toNat ++ bytes.drop (dst.size - dst.rfx).toNat := by
  have hc := contiguousSize_middle hlt hmiddle
  have hlen := h.length_buf
  have hw₀ := h.wfx_nonneg
  have hr₀ := h.rfx_nonneg
  rw [movedInto_split (by omega), hc, contents]
  dsimp only
  rw [Int.toNat_natCast]
  obtain ⟨c, hc'⟩ : ∃ c : ℕ, (dst.size - dst.rfx).toNat = c := ⟨_, rfl⟩
  rw [hc']
  have hfront : (bytes.take c).length = c := List.length_take_of_le (by omega)
  have hback : (bytes.drop c).length = bytes.length - c := List.length_drop
  have hfit : dst.wfx.toNat + (bytes.take c).length ≤ dst.buf.length := by omega
  have hlen₁ : (overwrite dst.buf dst.wfx.toNat (bytes.take c)).length = dst.buf.length :=
    length_overwrite hfit
  have hfit₂ : 0 + (bytes.drop c).length ≤
      (overwrite dst.buf dst.wfx.toNat (bytes.take c)).length := by omega
  have hlen₂ : (overwrite (overwrite dst.buf dst.wfx.toNat (bytes.take c)) 0
      (bytes.drop c)).length = dst.buf.length := (length_overwrite hfit₂).trans hlen₁
  have hrest : bytes.length - (dst.buf.length - dst.rfx.toNat) = (bytes.drop c).length := by omega
  have hle : (bytes.drop c).length ≤ dst.rfx.toNat := by omega
  rw [window_wrapped (by omega) (by omega), drop_overwrite (by omega) hfit₂,
    drop_overwrite (by omega) hfit, hlen₂, hrest, List.take_take, Nat.min_eq_left hle,
    take_overwrite_zero]

theorem appends_of_alreadyThere (h : Ranges dst) (hused : dst.used = 0)
    (hroom : (bytes.length : ℤ) ≤ dst.size) (hthere : AlreadyThere dst bytes) :
    Appends dst bytes := by
  obtain ⟨hlt, hmiddle, hlong, hsame⟩ := hthere
  have hc := contiguousSize_middle hlt hmiddle
  rw [Appends, contents_movedInto_middle h hlt hmiddle hlong hroom, hsame,
    List.take_append_drop, contents_of_used_zero hused, movedInto_split (by omega), hc]
  refine ⟨rfl, ?_, ?_⟩
  · dsimp only
    rw [Int.modEq_iff_dvd]
    refine ⟨-1, ?_⟩
    omega
  · have := h.rfx_le
    have := h.rfx_nonneg
    dsimp only
    omega

theorem takesBytes_of_appends (h : Ranges dst) (hw : dst.wfx ≤ dst.size)
    (hroom : (bytes.length : ℤ) ≤ dst.size - dst.used) (happends : Appends dst bytes) :
    TakesBytes dst bytes := by
  obtain ⟨hcontents, hoff, -⟩ := happends
  have hsize := h.size_pos
  have hlen := h.length_buf
  have hw₀ := h.wfx_nonneg
  have hr₀ := h.rfx_nonneg
  have hr := h.rfx_le
  have hu₀ := h.used_nonneg
  have hused : dst.used = 0 := by
    have hcount := congrArg List.length hcontents
    rw [List.length_append, h.length_contents, contents, used_movedInto, Int.toNat_natCast,
      length_window] at hcount
    · omega
    · rw [length_movedInto h hw hroom]
      omega
  refine ⟨hused, ?_⟩
  by_cases hstraight : (bytes.length : ℤ) ≤ contiguousSize dst
  · rw [movedInto_straight hstraight] at hoff
    have hmod : dst.rfx ≡ dst.wfx [ZMOD dst.size] := Int.ModEq.add_right_cancel' _ hoff
    have hturns := turns_of_dvd hsize hmod.dvd (by omega) (by omega)
    have hagrees : Agrees dst := by
      refine ⟨?_, hw⟩
      rw [hused, Int.add_zero]
      exact hmod
    refine Or.inl ⟨hagrees, ?_⟩
    by_cases hnil : bytes = []
    · exact Or.inl hnil
    · have hpos := List.length_pos_of_ne_nil hnil
      rw [contiguousSize] at hstraight
      right
      split at hstraight <;> omega
  · rw [Int.not_le] at hstraight
    rw [movedInto_split hstraight] at hoff
    have hdvd := hoff.symm.dvd
    dsimp only at hdvd
    have hends : dst.rfx + bytes.length - (bytes.length - contiguousSize dst) =
        dst.rfx + contiguousSize dst := by omega
    rw [hends] at hdvd
    obtain ⟨hc₀, hc⟩ := contiguousSize_bounds h hw
    have hturns := turns_of_dvd hsize hdvd (by omega) (by omega)
    by_cases hbefore : dst.rfx < dst.wfx
    · rw [contiguousSize, if_pos hbefore] at hturns
      refine Or.inl ⟨⟨?_, hw⟩, Or.inr (Or.inl (by omega))⟩
      rw [Int.modEq_iff_dvd]
      exact ⟨1, by omega⟩
    · rw [contiguousSize, if_neg hbefore] at hturns hstraight
      by_cases hmeet : dst.wfx = dst.rfx
      · refine Or.inl ⟨⟨?_, hw⟩, Or.inr (by omega)⟩
        rw [hused, hmeet, Int.add_zero]
      · have hlt : dst.wfx < dst.rfx := by omega
        have hmiddle : 2 * dst.rfx = dst.wfx + dst.size := by omega
        have hboth : dst.buf.drop dst.rfx.toNat ++ bytes.drop (dst.size - dst.rfx).toNat =
            bytes.take (dst.size - dst.rfx).toNat ++ bytes.drop (dst.size - dst.rfx).toNat := by
          rw [← contents_movedInto_middle h hlt hmiddle hstraight (by omega), hcontents,
            contents_of_used_zero hused, List.take_append_drop, List.nil_append]
        exact Or.inr ⟨hlt, hmiddle, hstraight, List.append_cancel_right hboth⟩

theorem appends_iff (h : Ranges dst) (hw : dst.wfx ≤ dst.size)
    (hroom : (bytes.length : ℤ) ≤ dst.size - dst.used) :
    Appends dst bytes ↔ TakesBytes dst bytes := by
  refine ⟨takesBytes_of_appends h hw hroom, ?_⟩
  rintro ⟨hused, ⟨hagrees, rfl | hrfx⟩ | hthere⟩
  · exact appends_nil h hagrees hused
  · exact appends_of_zero h hagrees hused (by omega) hrfx
  · exact appends_of_alreadyThere h hused (by omega) hthere

/-! ## Moves of reachable buffers -/

/-- `rbuf_move` returns the number of bytes, appends them to the destination, removes them
from the source and leaves the fields of both in their bounds. -/
def Moves (src dst : RBuf) (len : ℕ) : Prop :=
  ∃ src' dst', rbufMove src dst len = some (src', dst', (movedSize src dst len : ℤ)) ∧
    contents src' = (contents src).drop (movedSize src dst len) ∧
    contents dst' = contents dst ++ (contents src).take (movedSize src dst len) ∧
    InBounds src' src.buf.length ∧ InBounds dst' dst.buf.length

/-- The offsets of the source agree, and so do those of the destination if nothing is asked
for; else the destination takes the bytes. -/
def MoveFits (src dst : RBuf) (len : ℕ) : Prop :=
  Agrees src ∧
    (len = 0 ∧ Agrees dst ∨
      len ≠ 0 ∧ TakesBytes dst ((contents src).take (movedSize src dst len)))

theorem InBounds.agrees {size : ℕ} (h : InBounds rb size) : Agrees rb := by
  obtain ⟨hsize, -, -, -, -, -, -, hw, hoff⟩ := h
  rw [← hsize] at hw hoff
  exact ⟨hoff, hw⟩

theorem agrees_of_rbufRead {rb' : RBuf} {m k : ℤ} {out : List UInt8}
    (hrun : rbufRead rb m = some (rb', k, out)) (hagrees : Agrees rb') : Agrees rb := by
  obtain ⟨-, -, -, -, ⟨-, rfl⟩ | ⟨-, rfl⟩⟩ := rbufRead_cases hrun
  · refine hagrees.of_eq rfl 1 ?_ hagrees.wfx_le
    dsimp only
    omega
  · refine hagrees.of_eq rfl 0 ?_ hagrees.wfx_le
    dsimp only
    omega

theorem rbufMove_needs {src' dst' : RBuf} {len k : ℤ} (hsrc : Ranges src) (hdst : Ranges dst)
    (hlen : 0 < len) (hrun : rbufMove src dst len = some (src', dst', k)) :
    (Agrees src' → Agrees src) ∧ dst.wfx ≤ dst.size ∧ src.rfx ≤ src.size := by
  rw [rbufMove, rbufCopyInternal, if_neg hlen.ne'] at hrun
  obtain ⟨⟨s, d⟩, hcopy, heq⟩ := Option.map_eq_some_iff.mp hrun
  simp only [Prod.mk.injEq] at heq
  obtain ⟨rfl, rfl, -⟩ := heq
  have hlength := hdst.length_buf
  have hpos := (copySize_bounds hsrc hdst hlen.le).1
  by_cases hstraight : copySize src dst len ≤ contiguousSize dst
  · rw [if_pos hstraight] at hcopy
    have hcopied := copyStraight_copied hsrc hdst hpos hcopy
    rw [copyStraight, if_pos rfl] at hcopy
    obtain ⟨⟨s', k', out⟩, hread, hcopy⟩ := Option.bind_eq_some_iff.mp hcopy
    obtain ⟨buf, -, hcopy⟩ := Option.bind_eq_some_iff.mp hcopy
    obtain ⟨wfx, -, heq⟩ := Option.bind_eq_some_iff.mp hcopy
    simp only [Option.some.injEq, Prod.mk.injEq] at heq
    obtain ⟨rfl, -⟩ := heq
    exact ⟨agrees_of_rbufRead hread, hcopied.wfx_le.trans hlength.le,
      (rbufRead_cases hread).2.2.2.1⟩
  · rw [if_neg hstraight] at hcopy
    have hcopied := (copySplit_copied hsrc (Int.not_le.mp hstraight) hcopy).1
    rw [copySplit, if_pos rfl] at hcopy
    obtain ⟨⟨s₁, k₁, out₁⟩, hread₁, hcopy⟩ := Option.bind_eq_some_iff.mp hcopy
    obtain ⟨buf₁, -, hcopy⟩ := Option.bind_eq_some_iff.mp hcopy
    obtain ⟨⟨s₂, k₂, out₂⟩, hread₂, hcopy⟩ := Option.bind_eq_some_iff.mp hcopy
    obtain ⟨buf₂, -, heq⟩ := Option.bind_eq_some_iff.mp hcopy
    simp only [Option.some.injEq, Prod.mk.injEq] at heq
    obtain ⟨rfl, -⟩ := heq
    exact ⟨fun hagrees => agrees_of_rbufRead hread₁ (agrees_of_rbufRead hread₂ hagrees),
      hcopied.wfx_le.trans hlength.le, (rbufRead_cases hread₁).2.2.2.1⟩

theorem TakesBytes.wfx_le (h : Ranges dst) (htakes : TakesBytes dst bytes) :
    dst.wfx ≤ dst.size := by
  have hr := h.rfx_le
  obtain ⟨-, ⟨hagrees, -⟩ | hthere⟩ := htakes
  · exact hagrees.wfx_le
  · have := hthere.wfx_lt
    omega

/-- `rbuf_move` is right exactly if the destination takes the bytes. -/
theorem moves_iff (hsrc : Reachable src) (hdst : Reachable dst) (len : ℕ) :
    Moves src dst len ↔ MoveFits src dst len := by
  have hranges := hsrc.ranges
  have hranges' := hdst.ranges
  by_cases hlen : len = 0
  · have hnone : movedSize src dst len = 0 := by
      rw [hlen]
      exact Nat.zero_min _
    have hrun : rbufMove src dst len = some (src, dst, 0) := by
      rw [hlen]
      rfl
    rw [Moves, MoveFits, hrun, hnone]
    constructor
    · rintro ⟨src', dst', heq, -, -, hin, hin'⟩
      cases heq
      exact ⟨hin.agrees, Or.inl ⟨hlen, hin'.agrees⟩⟩
    · rintro ⟨hagrees, ⟨-, hagrees'⟩ | ⟨hpos, -⟩⟩
      · exact ⟨src, dst, rfl, rfl, (List.append_nil _).symm, hranges.inBounds hagrees,
          hranges'.inBounds hagrees'⟩
      · exact absurd hlen hpos
  have hlength : ((contents src).take (movedSize src dst len)).length = movedSize src dst len := by
    rw [List.length_take, hranges.length_contents, movedSize]
    omega
  have hroom : (((contents src).take (movedSize src dst len)).length : ℤ) ≤
      dst.size - dst.used := by
    have := hranges'.used_le
    rw [hlength, movedSize]
    omega
  constructor
  · rintro ⟨src', dst', hrun, -, hcontents, hin, hin'⟩
    obtain ⟨hneeds, hw, -⟩ := rbufMove_needs hranges hranges' (by omega) hrun
    have hagrees := hneeds hin.agrees
    obtain ⟨src'', hrun', -⟩ := rbufMove_eq hranges hagrees hranges' hw hlen
    rw [hrun] at hrun'
    cases hrun'
    exact ⟨hagrees, Or.inr ⟨hlen, (appends_iff hranges' hw hroom).mp ⟨hcontents, hin'.agrees⟩⟩⟩
  · rintro ⟨hagrees, ⟨hzero, -⟩ | ⟨-, htakes⟩⟩
    · exact absurd hzero hlen
    · have hw := htakes.wfx_le hranges'
      obtain ⟨hcontents, hagrees'⟩ := (appends_iff hranges' hw hroom).mpr htakes
      obtain ⟨src', hrun, hranges'', hagrees'', hbuf, hrest⟩ :=
        rbufMove_eq hranges hagrees hranges' hw hlen
      obtain ⟨-, -, hmoved⟩ := rbufCopyInternal_keeps hranges hranges' (Int.natCast_nonneg len) hrun
      have hin := hranges''.inBounds hagrees''
      have hin' := hmoved.inBounds hagrees'
      rw [hbuf] at hin
      rw [length_movedInto hranges' hw hroom] at hin'
      exact ⟨src', _, hrun, hrest, hcontents, hin, hin'⟩

/-! ## Bytes that get lost -/

/-- The destination holds two bytes, and one of them afterwards. -/
theorem move_loses_stored :
    ¬ ∀ src dst, Reachable src → Reachable dst → ∀ len : ℕ, Moves src dst len := by
  intro hall
  obtain ⟨src', dst', hrun, -, hcontents, -⟩ :=
    hall halfFull halfFull halfFull_reachable halfFull_reachable 1
  have hafter : (rbufMove halfFull halfFull (1 : ℕ)).map (fun r => contents r.2.1) =
      some [97] := by
    decide
  rw [hrun, Option.map_some, hcontents] at hafter
  exact absurd hafter (by decide)

/-- The equivalence for a destination that was just created. -/
theorem moves_iff_fresh :
    Moves halfFull (rbufCreate 4 fun _ => 0) 1 ↔ MoveFits halfFull (rbufCreate 4 fun _ => 0) 1 :=
  moves_iff halfFull_reachable (.create 4 (by decide) (by decide) fun _ => 0) 1

end RBuf
end LibHL
