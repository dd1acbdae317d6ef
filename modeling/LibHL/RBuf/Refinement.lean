import Mathlib.Data.Int.ModEq
import Mathlib.Tactic.Ring
import Mathlib.Tactic.Lift
import LibHL.RBuf.Model
import LibHL.Support.Run

/-!
# The ring buffer is a byte queue

The stored bytes are the window of the buffer that starts at the read offset.
Every operation moves the window as its specification on byte strings says, as
long as advancing the read offset stays within the range of `int`.
-/

namespace LibHL
namespace RBuf

open Circular

/-! ## Reference -/

/-- A byte queue and its mode. -/
structure ByteQueue where
  bytes : List UInt8
  mode : RbufMode

/-- The operations on a byte queue of capacity `size`. -/
def queueStep (size : ℕ) (q : ByteQueue) : RbufOp → ByteQueue × ℤ × List UInt8
  | .write inp =>
      match q.mode with
      | .blocking =>
          ({ q with bytes := q.bytes ++ inp.take (size - q.bytes.length) },
            ((min inp.length (size - q.bytes.length) : ℕ) : ℤ), [])
      | .overwrite =>
          ({ q with bytes := (q.bytes ++ inp).drop ((q.bytes ++ inp).length - size) },
            (inp.length : ℤ), [])
  | .read n =>
      ({ q with bytes := q.bytes.drop n }, ((min n q.bytes.length : ℕ) : ℤ), q.bytes.take n)
  | .skip n => ({ q with bytes := q.bytes.drop n }, 0, [])
  | .clear => ({ q with bytes := [] }, 0, [])
  | .setMode mode => ({ q with mode := mode }, 0, [])

/-- The stored bytes. -/
def contents (rb : RBuf) : List UInt8 := window rb.buf rb.rfx.toNat rb.used.toNat

/-- The ranges of the fields, and that the offsets delimit the stored bytes. -/
structure InBounds (rb : RBuf) (size : ℕ) : Prop where
  size_eq : rb.size = size
  length_buf : rb.buf.length = size
  used_nonneg : 0 ≤ rb.used
  used_le : rb.used ≤ size
  rfx_nonneg : 0 ≤ rb.rfx
  rfx_le : rb.rfx ≤ size
  wfx_nonneg : 0 ≤ rb.wfx
  wfx_le : rb.wfx ≤ size
  offsets : rb.rfx + rb.used ≡ rb.wfx [ZMOD size]

/-- A write that overwrites old bytes advances the read offset within the range
of `int`. -/
def ReadOffsetFits (rb : RBuf) : RbufOp → Prop
  | .write inp =>
      rb.mode = .overwrite → rb.size - rb.used < inp.length → inp.length ≤ rb.size →
        rb.rfx + (inp.length - (rb.size - rb.used)) ≤ INT_MAX
  | _ => True

instance decidableReadOffsetFits (rb : RBuf) : ∀ op, Decidable (ReadOffsetFits rb op)
  | .write inp => inferInstanceAs (Decidable (rb.mode = .overwrite →
      rb.size - rb.used < inp.length → inp.length ≤ rb.size →
        rb.rfx + (inp.length - (rb.size - rb.used)) ≤ INT_MAX))
  | .read _ => .isTrue trivial
  | .skip _ => .isTrue trivial
  | .clear => .isTrue trivial
  | .setMode _ => .isTrue trivial

/-! ## The primitives -/

theorem intAdd_natCast {x y : ℕ} (h : x + y < 2 ^ 31) :
    intAdd x y = some ((x + y : ℕ) : ℤ) := by
  have hfits : -(2 ^ 31) ≤ (x : ℤ) + y ∧ (x : ℤ) + y ≤ INT_MAX := by
    constructor
    · omega
    · show (x : ℤ) + y ≤ 2 ^ 31 - 1
      omega
  rw [intAdd, if_pos hfits]
  rfl

theorem intAdd_of_overflow {x y : ℤ} (h : INT_MAX < x + y) : intAdd x y = none :=
  if_neg fun hfits => absurd hfits.2 (Int.not_le.mpr h)

theorem load_natCast {buf : List UInt8} {off n : ℕ} (h : off + n ≤ buf.length) :
    load buf off n = some ((buf.drop off).take n) := by
  have hin : (0 : ℤ) ≤ off ∧ (0 : ℤ) ≤ n ∧ (off : ℤ) + n ≤ buf.length := by omega
  rw [load, if_pos hin, Int.toNat_natCast, Int.toNat_natCast]

theorem store_natCast {buf bytes : List UInt8} {off : ℕ}
    (h : off + bytes.length ≤ buf.length) :
    store buf off bytes = some (Circular.overwrite buf off bytes) := by
  have hin : (0 : ℤ) ≤ off ∧ (off : ℤ) + bytes.length ≤ buf.length := by omega
  rw [store, if_pos hin, Int.toNat_natCast]

/-! ## Offsets as natural numbers -/

/-- A buffer whose fields are natural numbers. -/
abbrev natState (buf : List UInt8) (used rfx wfx : ℕ) (mode : RbufMode) : RBuf where
  buf := buf
  size := buf.length
  used := used
  rfx := rfx
  wfx := wfx
  mode := mode

/-- Offsets that delimit `used` bytes. -/
structure Delimits (size used rfx wfx : ℕ) : Prop where
  used_le : used ≤ size
  rfx_le : rfx ≤ size
  wfx_le : wfx ≤ size
  offsets : rfx + used ≡ wfx [MOD size]

variable {rb : RBuf} {buf : List UInt8} {size used rfx wfx : ℕ} {mode : RbufMode}

theorem InBounds.exists_natState (h : InBounds rb size) :
    ∃ used rfx wfx, rb = natState rb.buf used rfx wfx rb.mode ∧
      Delimits rb.buf.length used rfx wfx := by
  obtain ⟨hsize, hlength, hu₀, hu, hr₀, hr, hw₀, hw, hoff⟩ := h
  obtain ⟨buf, sz, used, rfx, wfx, mode⟩ := rb
  dsimp only at *
  subst hlength
  lift used to ℕ using hu₀
  lift rfx to ℕ using hr₀
  lift wfx to ℕ using hw₀
  refine ⟨used, rfx, wfx, ?_, ?_, ?_, ?_, ?_⟩
  · rw [natState, hsize]
  · exact_mod_cast hu
  · exact_mod_cast hr
  · exact_mod_cast hw
  · exact_mod_cast hoff

theorem Delimits.inBounds (h : Delimits buf.length used rfx wfx) (mode : RbufMode) :
    InBounds (natState buf used rfx wfx mode) buf.length where
  size_eq := rfl
  length_buf := rfl
  used_nonneg := Int.natCast_nonneg used
  used_le := Int.ofNat_le.mpr h.used_le
  rfx_nonneg := Int.natCast_nonneg rfx
  rfx_le := Int.ofNat_le.mpr h.rfx_le
  wfx_nonneg := Int.natCast_nonneg wfx
  wfx_le := Int.ofNat_le.mpr h.wfx_le
  offsets := by
    have := h.offsets
    show (rfx : ℤ) + used ≡ wfx [ZMOD buf.length]
    exact_mod_cast this

theorem contents_natState (buf : List UInt8) (used rfx wfx : ℕ) (mode : RbufMode) :
    contents (natState buf used rfx wfx mode) = window buf rfx used := rfl

theorem length_contents (h : Delimits buf.length used rfx wfx) :
    (window buf rfx used).length = used := length_window h.used_le

/-- Moving the read offset forward drops bytes. -/
theorem Delimits.advance {rfx' n : ℕ} (h : Delimits buf.length used rfx wfx) (hn : n ≤ used)
    (hrfx : rfx + n ≡ rfx' [MOD buf.length]) (hle : rfx' ≤ buf.length) :
    Delimits buf.length (used - n) rfx' wfx ∧
      window buf rfx' (used - n) = (window buf rfx used).drop n := by
  refine ⟨⟨?_, hle, h.wfx_le, ?_⟩, ?_⟩
  · have := h.used_le
    omega
  · have hsum : rfx + n + (used - n) = rfx + used := by omega
    have hmove : rfx' + (used - n) ≡ rfx + n + (used - n) [MOD buf.length] :=
      Nat.ModEq.add_right _ hrfx.symm
    rw [hsum] at hmove
    exact hmove.trans h.offsets
  · rw [drop_window hn h.used_le]
    exact window_congr hrfx.symm

theorem modEq_wrap {n : ℕ} (hle : rfx ≤ size) (hround : size - rfx ≤ n) :
    rfx + n ≡ n - (size - rfx) [MOD size] := by
  have hsum : rfx + n = n - (size - rfx) + size := by omega
  rw [hsum]
  exact Nat.add_modEq_right

/-! ## Reading -/

theorem rbufSkip_refines (h : Delimits buf.length used rfx wfx) (hsize : buf.length < 2 ^ 31)
    (mode : RbufMode) (n : ℕ) :
    ∃ used' rfx', rbufSkip (natState buf used rfx wfx mode) n =
        some (natState buf used' rfx' wfx mode) ∧
      Delimits buf.length used' rfx' wfx ∧
      window buf rfx' used' = (window buf rfx used).drop n := by
  have hr := h.rfx_le
  by_cases hall : used ≤ n
  · refine ⟨0, wfx, ?_, ⟨Nat.zero_le _, h.wfx_le, h.wfx_le, rfl⟩, ?_⟩
    · have hall' : (natState buf used rfx wfx mode).used ≤ (n : ℤ) := Int.ofNat_le.mpr hall
      rw [rbufSkip, if_pos hall']
      rfl
    · rw [window_zero, List.drop_of_length_le]
      rw [length_contents h]
      exact hall
  · have hall' : ¬ (natState buf used rfx wfx mode).used ≤ (n : ℤ) :=
      fun hle => hall (Int.ofNat_le.mp hle)
    by_cases hround : buf.length - rfx < n
    · have hround' : (natState buf used rfx wfx mode).size -
          (natState buf used rfx wfx mode).rfx < (n : ℤ) := by
        show (buf.length : ℤ) - rfx < n
        omega
      have hu := h.used_le
      have hadv := h.advance (by omega) (modEq_wrap hr hround.le) (by omega)
      refine ⟨used - n, n - (buf.length - rfx), ?_, hadv.1, hadv.2⟩
      rw [rbufSkip, if_neg hall', if_pos hround']
      simp only [natState, Option.some.injEq, RBuf.mk.injEq, true_and, and_true]
      omega
    · have hround' : ¬ (natState buf used rfx wfx mode).size -
          (natState buf used rfx wfx mode).rfx < (n : ℤ) := by
        show ¬ (buf.length : ℤ) - rfx < n
        omega
      have hadv := h.advance (by omega) (Nat.ModEq.refl (rfx + n)) (by omega)
      refine ⟨used - n, rfx + n, ?_, hadv.1, hadv.2⟩
      have hadd : intAdd (natState buf used rfx wfx mode).rfx n = some ((rfx + n : ℕ) : ℤ) :=
        intAdd_natCast (by omega)
      rw [rbufSkip, if_neg hall', if_neg hround', hadd]
      simp only [natState, Option.bind_eq_bind, Option.bind_some, Option.some.injEq,
        RBuf.mk.injEq, true_and, and_true]
      omega

theorem rbufRead_refines (h : Delimits buf.length used rfx wfx) (hsize : buf.length < 2 ^ 31)
    (mode : RbufMode) (n : ℕ) :
    ∃ used' rfx', rbufRead (natState buf used rfx wfx mode) n =
        some (natState buf used' rfx' wfx mode, ((min n used : ℕ) : ℤ),
          (window buf rfx used).take n) ∧
      Delimits buf.length used' rfx' wfx ∧
      window buf rfx' used' = (window buf rfx used).drop n := by
  have hr := h.rfx_le
  have hu := h.used_le
  have hk : min n used ≤ used := Nat.min_le_right n used
  have hreadSize : (if (natState buf used rfx wfx mode).used < (n : ℤ) then
      (natState buf used rfx wfx mode).used else (n : ℤ)) = ((min n used : ℕ) : ℤ) := by
    show (if (used : ℤ) < n then (used : ℤ) else n) = _
    split <;> omega
  have htake : (window buf rfx used).take n = window buf rfx (min n used) := by
    have hmin : (window buf rfx used).take n = (window buf rfx used).take (min n used) := by
      rw [List.take_eq_take_iff, length_contents h]
      omega
    rw [hmin, take_window buf rfx hk]
  have hdrop : (window buf rfx used).drop n = (window buf rfx used).drop (min n used) := by
    by_cases hn : n ≤ used
    · rw [Nat.min_eq_left hn]
    · rw [List.drop_of_length_le, List.drop_of_length_le]
      · rw [length_contents h]
        omega
      · rw [length_contents h]
        omega
  rw [htake, hdrop]
  generalize min n used = k at *
  by_cases hround : buf.length - rfx < k
  · have hround' : (natState buf used rfx wfx mode).size -
        (natState buf used rfx wfx mode).rfx < (k : ℤ) := by
      show (buf.length : ℤ) - rfx < k
      omega
    have hadv := h.advance hk (modEq_wrap hr hround.le) (by omega)
    refine ⟨used - k, k - (buf.length - rfx), ?_, hadv.1, hadv.2⟩
    have hfront : load buf rfx ((buf.length : ℤ) - rfx) = some (buf.drop rfx) := by
      have hcast : (buf.length : ℤ) - rfx = ((buf.length - rfx : ℕ) : ℤ) := by omega
      rw [hcast, load_natCast (by omega), List.take_of_length_le]
      rw [List.length_drop]
    have hback : load buf 0 ((k : ℤ) - (buf.length - rfx)) =
        some ((buf.take rfx).take (k - (buf.length - rfx))) := by
      have hcast : (k : ℤ) - (buf.length - rfx) = ((k - (buf.length - rfx) : ℕ) : ℤ) := by
        omega
      have hzero : (0 : ℤ) = ((0 : ℕ) : ℤ) := rfl
      rw [hcast, hzero, load_natCast (by omega), List.drop_zero, List.take_take,
        Nat.min_eq_left (by omega)]
    rw [rbufRead, hreadSize]
    dsimp only
    rw [if_pos hround']
    simp only [natState, hfront, hback, Option.bind_eq_bind, Option.bind_some,
      Option.some.injEq, Prod.mk.injEq, RBuf.mk.injEq, true_and, and_true]
    refine ⟨by omega, (window_wrapped hr hround).symm⟩
  · have hround' : ¬ (natState buf used rfx wfx mode).size -
        (natState buf used rfx wfx mode).rfx < (k : ℤ) := by
      show ¬ (buf.length : ℤ) - rfx < k
      omega
    have hadv := h.advance hk (Nat.ModEq.refl (rfx + k)) (by omega)
    refine ⟨used - k, rfx + k, ?_, hadv.1, hadv.2⟩
    have hout : load buf rfx k = some (window buf rfx k) := by
      rw [load_natCast (by omega), window_straight (by omega) hr]
    have hadd : intAdd rfx k = some ((rfx + k : ℕ) : ℤ) := intAdd_natCast (by omega)
    rw [rbufRead, hreadSize]
    dsimp only
    rw [if_neg hround']
    simp only [natState, hout, hadd, Option.bind_eq_bind, Option.bind_some, Option.some.injEq,
      Prod.mk.injEq, RBuf.mk.injEq, true_and, and_true]
    omega

/-! ## Writing -/

/-- The two pieces of a write extend the window by the first `k` bytes. -/
theorem writeBytes_refines (h : Delimits buf.length used rfx wfx) (hsize : buf.length ≤ 2 ^ 30)
    (mode : RbufMode) (inp : List UInt8) {k : ℕ} (hk : k ≤ inp.length) (hfit : used + k ≤ buf.length) :
    ∃ buf' wfx', writeBytes (natState buf used rfx wfx mode) inp (buf.length - wfx) k =
        some (natState buf' (used + k) rfx wfx' mode, (k : ℤ)) ∧
      buf'.length = buf.length ∧ Delimits buf'.length (used + k) rfx wfx' ∧
      window buf' rfx (used + k) = window buf rfx used ++ inp.take k := by
  have hw := h.wfx_le
  have hlen : (inp.take k).length = k := List.length_take_of_le hk
  have hmoved : ∀ {wfx'}, wfx + k ≡ wfx' [MOD buf.length] →
      rfx + (used + k) ≡ wfx' [MOD buf.length] := by
    intro wfx' hw'
    have hsum : rfx + (used + k) = rfx + used + k := (Nat.add_assoc rfx used k).symm
    rw [hsum]
    exact (Nat.ModEq.add_right k h.offsets).trans hw'
  have hused : intAdd used k = some ((used + k : ℕ) : ℤ) := intAdd_natCast (by omega)
  have hzero : (0 : ℤ) = ((0 : ℕ) : ℤ) := rfl
  by_cases hround : buf.length - wfx < k
  · have hround' : (buf.length : ℤ) - wfx < k := by omega
    have htoEnd : (buf.length : ℤ) - wfx = ((buf.length - wfx : ℕ) : ℤ) := by omega
    have hrest : (k : ℤ) - ((buf.length - wfx : ℕ) : ℤ) =
        ((k - (buf.length - wfx) : ℕ) : ℤ) := by omega
    have hfront : load inp 0 ((buf.length - wfx : ℕ) : ℤ) =
        some ((inp.take k).take (buf.length - wfx)) := by
      rw [hzero, load_natCast (by omega), List.drop_zero, List.take_take,
        Nat.min_eq_left hround.le]
    have hback : load inp ((buf.length - wfx : ℕ) : ℤ) ((k - (buf.length - wfx) : ℕ) : ℤ) =
        some ((inp.take k).drop (buf.length - wfx)) := by
      rw [load_natCast (by omega), List.drop_take]
    have hstore₁ : store buf wfx ((inp.take k).take (buf.length - wfx)) =
        some (Circular.overwrite buf wfx ((inp.take k).take (buf.length - wfx))) := by
      apply store_natCast
      rw [List.length_take, hlen]
      omega
    have hlen₁ : (Circular.overwrite buf wfx ((inp.take k).take (buf.length - wfx))).length =
        buf.length := by
      apply length_overwrite
      rw [List.length_take, hlen]
      omega
    have hfit₂ : 0 + ((inp.take k).drop (buf.length - wfx)).length ≤
        (Circular.overwrite buf wfx ((inp.take k).take (buf.length - wfx))).length := by
      rw [List.length_drop, hlen, hlen₁]
      omega
    have hstore₂ := store_natCast hfit₂
    have hlen₂ := (length_overwrite hfit₂).trans hlen₁
    have hlong : buf.length - wfx < (inp.take k).length := by
      rw [hlen]
      exact hround
    have hrot := rotate_overwrite_wrapped hw hlong (by rw [hlen]; omega)
    have hwin := window_append hrot hlen₂ h.offsets (by rw [hlen]; exact hfit)
    rw [hlen] at hwin
    refine ⟨_, k - (buf.length - wfx), ?_, hlen₂, ?_, hwin⟩
    · rw [writeBytes, if_pos hround', htoEnd, hfront]
      simp only [natState, Option.bind_eq_bind, Option.bind_some, hstore₁, hrest, hback]
      rw [hzero, hstore₂]
      simp only [Option.bind_some, hused, hlen₂]
    · rw [hlen₂]
      exact ⟨hfit, h.rfx_le, by omega, hmoved (modEq_wrap hw hround.le)⟩
  · have hround' : ¬ (buf.length : ℤ) - wfx < k := by omega
    have hload : load inp 0 k = some (inp.take k) := by
      rw [hzero, load_natCast (by omega), List.drop_zero]
    have hfit₁ : wfx + (inp.take k).length ≤ buf.length := by
      rw [hlen]
      omega
    have hstore := store_natCast hfit₁
    have hlen₁ := length_overwrite hfit₁
    have hwfx : intAdd wfx k = some ((wfx + k : ℕ) : ℤ) := intAdd_natCast (by omega)
    have hwin := window_append (rotate_overwrite hfit₁) hlen₁ h.offsets
      (by rw [hlen]; exact hfit)
    rw [hlen] at hwin
    refine ⟨_, wfx + k, ?_, hlen₁, ?_, hwin⟩
    · rw [writeBytes, if_neg hround', hload]
      simp only [natState, Option.bind_eq_bind, Option.bind_some, hstore, hwfx, hused, hlen₁]
    · rw [hlen₁]
      exact ⟨hfit, h.rfx_le, by omega, hmoved rfl⟩

/-- A write that does not overwrite. -/
theorem rbufWrite_eq_writeBytes {inp : List UInt8} (h : Delimits buf.length used rfx wfx)
    (hne : inp.length ≠ 0) (hkeep : mode = .blocking ∨ inp.length ≤ buf.length - used) :
    rbufWrite (natState buf used rfx wfx mode) inp =
      writeBytes (natState buf used rfx wfx mode) inp (buf.length - wfx)
        ((min inp.length (buf.length - used) : ℕ) : ℤ) := by
  have hu := h.used_le
  have hne' : ¬ (inp.length : ℤ) = 0 := by omega
  have hsize : (if (buf.length : ℤ) - used < inp.length then (buf.length : ℤ) - used
      else (inp.length : ℤ)) = ((min inp.length (buf.length - used) : ℕ) : ℤ) := by
    split <;> omega
  have hguard : ¬ (((min inp.length (buf.length - used) : ℕ) : ℤ) < inp.length ∧
      mode = .overwrite) := by
    rintro ⟨hlt, hover⟩
    rcases hkeep with hblock | hle
    · rw [hblock] at hover
      cases hover
    · omega
  simp only [rbufWrite, natState]
  rw [if_neg hne', hsize, if_neg hguard]

/-- A write of more bytes than the buffer holds leaves the last ones. -/
theorem rbufWrite_whole {inp : List UInt8} (hlong : buf.length < inp.length)
    (hover : mode = .overwrite) (h : Delimits buf.length used rfx wfx) :
    ∃ buf', rbufWrite (natState buf used rfx wfx mode) inp =
        some (natState buf' buf.length 0 0 mode, (inp.length : ℤ)) ∧
      buf'.length = buf.length ∧ Delimits buf'.length buf.length 0 0 ∧
      window buf' 0 buf.length = inp.drop (inp.length - buf.length) := by
  have hu := h.used_le
  have hne : ¬ (inp.length : ℤ) = 0 := by omega
  have hguard : (if (buf.length : ℤ) - used < inp.length then (buf.length : ℤ) - used
      else (inp.length : ℤ)) < inp.length ∧ mode = .overwrite := by
    refine ⟨?_, hover⟩
    rw [if_pos (by omega)]
    omega
  have hlong' : (buf.length : ℤ) < inp.length := by omega
  have hcast : (inp.length : ℤ) - buf.length = ((inp.length - buf.length : ℕ) : ℤ) := by omega
  have hlen : (inp.drop (inp.length - buf.length)).length = buf.length := by
    rw [List.length_drop]
    omega
  have hload : load inp ((inp.length : ℤ) - buf.length) buf.length =
      some (inp.drop (inp.length - buf.length)) := by
    rw [hcast, load_natCast (by omega), List.take_of_length_le hlen.le]
  have hzero : (0 : ℤ) = ((0 : ℕ) : ℤ) := rfl
  have hfit : 0 + (inp.drop (inp.length - buf.length)).length ≤ buf.length := by
    rw [Nat.zero_add, hlen]
  have hstore : store buf 0 (inp.drop (inp.length - buf.length)) =
      some (inp.drop (inp.length - buf.length)) := by
    have hrest : buf.drop (0 + buf.length) = [] :=
      List.drop_of_length_le (Nat.zero_add _).ge
    rw [hzero, store_natCast hfit, Circular.overwrite, List.take_zero, List.nil_append,
      hlen, hrest, List.append_nil]
  refine ⟨inp.drop (inp.length - buf.length), ?_, hlen, ?_, ?_⟩
  · simp only [rbufWrite, natState]
    rw [if_neg hne, if_pos hguard, if_pos hlong', hload]
    simp only [Option.bind_eq_bind, Option.bind_some, hstore, hlen]
    rfl
  · rw [hlen]
    refine ⟨le_rfl, Nat.zero_le _, Nat.zero_le _, ?_⟩
    rw [Nat.zero_add]
    exact (Nat.modEq_zero_iff_dvd.mpr (dvd_refl buf.length))
  · rw [window, List.rotate_zero, List.take_of_length_le hlen.le]

/-- A write that overwrites some of the old bytes. -/
theorem rbufWrite_part {inp : List UInt8} (hshort : inp.length ≤ buf.length)
    (hmore : buf.length - used < inp.length) (hover : mode = .overwrite)
    (h : Delimits buf.length used rfx wfx) (hsize : buf.length ≤ 2 ^ 30)
    (hfits : rfx + (inp.length - (buf.length - used)) < 2 ^ 31) :
    ∃ buf' rfx' wfx', rbufWrite (natState buf used rfx wfx mode) inp =
        some (natState buf' buf.length rfx' wfx' mode, (inp.length : ℤ)) ∧
      buf'.length = buf.length ∧ Delimits buf'.length buf.length rfx' wfx' ∧
      window buf' rfx' buf.length =
        (window buf rfx used).drop (inp.length - (buf.length - used)) ++ inp := by
  have hu := h.used_le
  have hr := h.rfx_le
  have hne : ¬ (inp.length : ℤ) = 0 := by omega
  have hmore' : (buf.length : ℤ) - used < inp.length := by omega
  have hguard : (buf.length : ℤ) - used < inp.length ∧ mode = .overwrite := ⟨hmore', hover⟩
  have hshort' : ¬ (buf.length : ℤ) < inp.length := by omega
  have hdiff : (inp.length : ℤ) - (buf.length - used) =
      ((inp.length - (buf.length - used) : ℕ) : ℤ) := by omega
  have havail : (buf.length : ℤ) - used = ((buf.length - used : ℕ) : ℤ) := by omega
  generalize hd : inp.length - (buf.length - used) = diff at hdiff hfits ⊢
  have hadv : ∃ rfx' : ℕ, (if (buf.length : ℤ) ≤ ((rfx + diff : ℕ) : ℤ) then
        ((rfx + diff : ℕ) : ℤ) - buf.length else ((rfx + diff : ℕ) : ℤ)) = (rfx' : ℤ) ∧
      rfx + diff ≡ rfx' [MOD buf.length] ∧ rfx' ≤ buf.length := by
    by_cases hround : buf.length ≤ rfx + diff
    · have hround' : (buf.length : ℤ) ≤ ((rfx + diff : ℕ) : ℤ) := Int.ofNat_le.mpr hround
      refine ⟨diff - (buf.length - rfx), ?_, modEq_wrap hr (by omega), by omega⟩
      rw [if_pos hround']
      omega
    · have hround' : ¬ (buf.length : ℤ) ≤ ((rfx + diff : ℕ) : ℤ) :=
        fun hle => hround (Int.ofNat_le.mp hle)
      exact ⟨rfx + diff, if_neg hround', rfl, by omega⟩
  obtain ⟨rfx', hrfx, hmod, hle⟩ := hadv
  obtain ⟨h', hwin⟩ := h.advance (by omega) hmod hle
  obtain ⟨buf', wfx', hrun, hlen, hdel, hwin'⟩ :=
    writeBytes_refines h' hsize mode inp le_rfl (by omega)
  have hfull : used - diff + inp.length = buf.length := by omega
  rw [hfull] at hrun hdel hwin'
  refine ⟨buf', rfx', wfx', ?_, hlen, hdel, ?_⟩
  · have hadd₁ : intAdd rfx diff = some ((rfx + diff : ℕ) : ℤ) := intAdd_natCast hfits
    have hadd₂ : intAdd ((buf.length - used : ℕ) : ℤ) diff = some (inp.length : ℤ) := by
      rw [intAdd_natCast (by omega)]
      congr 2
      omega
    rw [← hrun]
    simp only [rbufWrite, natState]
    rw [if_neg hne, if_pos hmore', if_pos hguard, if_neg hshort', hdiff, havail, hadd₁, hadd₂]
    simp only [Option.bind_eq_bind, Option.bind_some, hrfx]
    congr 2
    omega
  · rw [hwin', hwin, List.take_length]

theorem rbufWrite_refines (h : Delimits buf.length used rfx wfx) (hsize : buf.length ≤ 2 ^ 30)
    (inp : List UInt8)
    (hfits : ReadOffsetFits (natState buf used rfx wfx mode) (.write inp)) :
    ∃ buf' used' rfx' wfx', rbufWrite (natState buf used rfx wfx mode) inp =
        some (natState buf' used' rfx' wfx' mode,
          (queueStep buf.length ⟨window buf rfx used, mode⟩ (.write inp)).2.1) ∧
      buf'.length = buf.length ∧ Delimits buf'.length used' rfx' wfx' ∧
      queueStep buf.length ⟨window buf rfx used, mode⟩ (.write inp) =
        (⟨window buf' rfx' used', mode⟩,
          (queueStep buf.length ⟨window buf rfx used, mode⟩ (.write inp)).2.1, []) := by
  have hu := h.used_le
  have hcount := length_contents h
  by_cases hne : inp.length = 0
  · obtain rfl := List.eq_nil_of_length_eq_zero hne
    refine ⟨buf, used, rfx, wfx, ?_, rfl, h, ?_⟩
    · cases mode with
      | blocking => simp [rbufWrite, queueStep]
      | overwrite => simp [rbufWrite, queueStep]
    · cases mode with
      | blocking => simp [queueStep]
      | overwrite => simp [queueStep, hcount, hu]
  by_cases hkeep : mode = .blocking ∨ inp.length ≤ buf.length - used
  · obtain ⟨buf', wfx', hrun, hlen, hdel, hwin⟩ := writeBytes_refines h hsize mode inp
      (Nat.min_le_left inp.length (buf.length - used)) (by omega)
    refine ⟨buf', _, rfx, wfx', ?_, hlen, hdel, ?_⟩
    · rw [rbufWrite_eq_writeBytes h hne hkeep, hrun]
      cases mode with
      | blocking => simp [queueStep, hcount]
      | overwrite =>
          have hle : inp.length ≤ buf.length - used := hkeep.resolve_left (by decide)
          simp [queueStep, hle]
    · cases mode with
      | blocking =>
          rw [hwin]
          simp only [queueStep, hcount]
          rw [List.take_eq_take_min, Nat.min_comm]
      | overwrite =>
          have hle : inp.length ≤ buf.length - used := hkeep.resolve_left (by decide)
          have hzero : (window buf rfx used ++ inp).length - buf.length = 0 := by
            rw [List.length_append, hcount]
            omega
          rw [hwin, Nat.min_eq_left hle, List.take_length]
          simp only [queueStep, hzero, List.drop_zero]
  · obtain ⟨hmode, hmore⟩ := not_or.mp hkeep
    have hover : mode = .overwrite := by
      cases mode with
      | blocking => exact absurd rfl hmode
      | overwrite => rfl
    by_cases hlong : buf.length < inp.length
    · obtain ⟨buf', hrun, hlen, hdel, hwin⟩ := rbufWrite_whole hlong hover h
      subst hover
      refine ⟨buf', _, 0, 0, hrun, hlen, hdel, ?_⟩
      have hsplit : (window buf rfx used ++ inp).length - buf.length =
          (window buf rfx used).length + (inp.length - buf.length) := by
        rw [List.length_append]
        omega
      rw [hwin]
      simp only [queueStep, hsplit, List.drop_length_add_append]
    · have hfits' : rfx + (inp.length - (buf.length - used)) < 2 ^ 31 := by
        have hbound : (rfx : ℤ) + (inp.length - (buf.length - used)) ≤ 2 ^ 31 - 1 :=
          hfits hover (by show (buf.length : ℤ) - used < inp.length; omega)
            (by show (inp.length : ℤ) ≤ buf.length; omega)
        omega
      obtain ⟨buf', rfx', wfx', hrun, hlen, hdel, hwin⟩ :=
        rbufWrite_part (Nat.not_lt.mp hlong) (Nat.not_le.mp hmore) hover h hsize hfits'
      subst hover
      refine ⟨buf', _, rfx', wfx', hrun, hlen, hdel, ?_⟩
      have hdrop : (window buf rfx used ++ inp).length - buf.length =
          inp.length - (buf.length - used) := by
        rw [List.length_append, hcount]
        omega
      rw [hwin]
      simp only [queueStep, hdrop]
      rw [List.drop_append_of_le_length]
      rw [hcount]
      omega

/-! ## Runs -/

/-- One operation on a buffer in bounds. -/
theorem stepOp_refines (h : InBounds rb size) (hsize : size ≤ 2 ^ 30) (op : RbufOp)
    (hfits : ReadOffsetFits rb op) :
    ∃ rb', stepOp rb op = some (rb', (queueStep size ⟨contents rb, rb.mode⟩ op).2) ∧
      InBounds rb' size ∧
      (queueStep size ⟨contents rb, rb.mode⟩ op).1 = ⟨contents rb', rb'.mode⟩ := by
  have hlength := h.length_buf
  obtain ⟨used, rfx, wfx, hrb, hd⟩ := h.exists_natState
  subst hlength
  generalize rb.buf = buf at *
  generalize rb.mode = mode at *
  subst hrb
  cases op with
  | write inp =>
      obtain ⟨buf', used', rfx', wfx', hrun, hlen, hd', hq⟩ := rbufWrite_refines hd hsize inp hfits
      refine ⟨natState buf' used' rfx' wfx' mode, ?_, hlen ▸ hd'.inBounds mode, ?_⟩
      · rw [stepOp, hrun, contents_natState, hq]
        rfl
      · rw [contents_natState, hq]
        rfl
  | read n =>
      obtain ⟨used', rfx', hrun, hd', hwin⟩ := rbufRead_refines hd (by omega) mode n
      refine ⟨natState buf used' rfx' wfx mode, ?_, hd'.inBounds mode, ?_⟩
      · rw [stepOp, hrun, contents_natState, queueStep, length_contents hd]
      · rw [contents_natState, contents_natState, hwin]
        rfl
  | skip n =>
      obtain ⟨used', rfx', hrun, hd', hwin⟩ := rbufSkip_refines hd (by omega) mode n
      refine ⟨natState buf used' rfx' wfx mode, ?_, hd'.inBounds mode, ?_⟩
      · rw [stepOp, hrun]
        rfl
      · rw [contents_natState, contents_natState, hwin]
        rfl
  | clear =>
      have hd' : Delimits buf.length 0 0 0 :=
        ⟨Nat.zero_le _, Nat.zero_le _, Nat.zero_le _, rfl⟩
      exact ⟨natState buf 0 0 0 mode, rfl, hd'.inBounds mode, rfl⟩
  | setMode mode' =>
      exact ⟨natState buf used rfx wfx mode', rfl, hd.inBounds mode', rfl⟩

theorem inBounds_create {size : ℕ} (hpos : 0 < size) (mem : ℕ → UInt8) :
    InBounds (rbufCreate size mem) size := by
  have hne : size ≠ 0 := hpos.ne'
  have hd : Delimits ((List.range size).map mem).length 0 0 0 :=
    ⟨Nat.zero_le _, Nat.zero_le _, Nat.zero_le _, rfl⟩
  have hcreate : rbufCreate size mem = natState ((List.range size).map mem) 0 0 0 .blocking := by
    simp [rbufCreate, hne]
  have hb := hd.inBounds .blocking
  rw [List.length_map, List.length_range] at hb
  rw [hcreate]
  exact hb

/-- In every run whose overwriting writes keep the read offset within the range of
`int`, the ring buffer answers as a byte queue of its capacity, and its fields stay
in bounds. -/
theorem rbuf_refines_byteQueue (size : ℕ) (hpos : 0 < size) (hsize : size ≤ 2 ^ 30)
    (mem : ℕ → UInt8) (ops : List RbufOp)
    (hmeet : StepsMeet stepOp ReadOffsetFits (rbufCreate size mem) ops) :
    ∃ rb, runSteps stepOp (rbufCreate size mem) ops =
        some (rb, (refRun (queueStep size) ⟨[], .blocking⟩ ops).2) ∧
      (refRun (queueStep size) ⟨[], .blocking⟩ ops).1 = ⟨contents rb, rb.mode⟩ ∧
      InBounds rb size := by
  have hstep : ∀ (rb : RBuf) (q : ByteQueue) (op : RbufOp),
      (InBounds rb size ∧ q = ⟨contents rb, rb.mode⟩) → ReadOffsetFits rb op →
      ∃ rb', stepOp rb op = some (rb', (queueStep size q op).2) ∧
        (InBounds rb' size ∧ (queueStep size q op).1 = ⟨contents rb', rb'.mode⟩) := by
    rintro rb q op ⟨h, rfl⟩ hfits
    exact stepOp_refines h hsize op hfits
  obtain ⟨rb, hrun, h, hq⟩ := runSteps_refines hstep ops (rbufCreate size mem)
    ⟨[], .blocking⟩ ⟨inBounds_create hpos mem, rfl⟩ hmeet
  exact ⟨rb, hrun, hq, h⟩

theorem readOffsetFits_of_lt (h : InBounds rb size) (hlt : size < 2 ^ 30) (op : RbufOp) :
    ReadOffsetFits rb op := by
  obtain ⟨hsize, -, -, hu, -, hr, -, -, -⟩ := h
  cases op with
  | write inp =>
      intro _ _ hshort
      show rb.rfx + (inp.length - (rb.size - rb.used)) ≤ 2 ^ 31 - 1
      omega
  | read n => trivial
  | skip n => trivial
  | clear => trivial
  | setMode mode => trivial

/-- Hence all its runs are those of a byte queue. -/
theorem stepsMeet_readOffsetFits_of_lt (size : ℕ) (hpos : 0 < size) (hlt : size < 2 ^ 30)
    (mem : ℕ → UInt8) (ops : List RbufOp) :
    StepsMeet stepOp ReadOffsetFits (rbufCreate size mem) ops := by
  refine stepsMeet_of_invariant (fun rb => InBounds rb size)
    (fun rb op h => readOffsetFits_of_lt h hlt op) ?_ ops _ (inBounds_create hpos mem)
  intro rb op rb' o h hstep
  obtain ⟨rb'', hrun, h', -⟩ :=
    stepOp_refines h hlt.le op (readOffsetFits_of_lt h hlt op)
  rw [hrun] at hstep
  cases hstep
  exact h'

/-- Wrapping writes, an overwriting write and one that is longer than the buffer. -/
def wrappingRun : List RbufOp :=
  [.write [1, 2, 3], .read 2, .write [4, 5, 6], .skip 1, .setMode .overwrite,
    .write [7, 8, 9], .read 3, .write [1, 2, 3, 4, 5, 6], .read 4, .clear]

theorem rbuf_refines_byteQueue_wrapping :
    StepsMeet stepOp ReadOffsetFits (rbufCreate (4 : ℕ) fun _ => 0) wrappingRun ∧
      ∃ rb, runSteps stepOp (rbufCreate (4 : ℕ) fun _ => 0) wrappingRun =
          some (rb, (refRun (queueStep 4) ⟨[], .blocking⟩ wrappingRun).2) ∧
        InBounds rb 4 := by
  have hmeet : StepsMeet stepOp ReadOffsetFits (rbufCreate (4 : ℕ) fun _ => 0) wrappingRun := by
    decide
  obtain ⟨rb, hrun, -, h⟩ := rbuf_refines_byteQueue 4 (by decide) (by decide) (fun _ => 0)
    wrappingRun hmeet
  exact ⟨hmeet, rb, hrun, h⟩

/-! ## Overflow of the read offset -/

theorem load_all (bytes : List UInt8) : load bytes 0 bytes.length = some bytes := by
  have h : load bytes ((0 : ℕ) : ℤ) bytes.length = _ := load_natCast (Nat.zero_add _).le
  rw [List.drop_zero, List.take_length] at h
  exact h

theorem store_all {bytes : List UInt8} (h : bytes.length = buf.length) :
    store buf 0 bytes = some bytes := by
  have hstore : store buf ((0 : ℕ) : ℤ) bytes = _ :=
    store_natCast ((Nat.zero_add _).le.trans h.le)
  have hrest : buf.drop (0 + bytes.length) = [] :=
    List.drop_of_length_le ((Nat.zero_add _).trans h).ge
  rw [Circular.overwrite, List.take_zero, List.nil_append, hrest, List.append_nil] at hstore
  exact hstore

/-- A full turn of the buffer leaves both offsets at its end. -/
def fullTurn (bytes : List UInt8) : List RbufOp :=
  [.setMode .overwrite, .write bytes, .read bytes.length, .write bytes, .write bytes]

/-- The last write of a full turn adds the size to a read offset that is already at
the end. -/
theorem fullTurn_eq_none {bytes : List UInt8} (hpos : 0 < bytes.length)
    (hsize : bytes.length ≤ 2 ^ 30) (hover : INT_MAX < (bytes.length : ℤ) + bytes.length)
    (mem : ℕ → UInt8) :
    runSteps stepOp (rbufCreate bytes.length mem) (fullTurn bytes) = none := by
  have hnil : bytes ≠ [] := List.ne_nil_of_length_pos hpos
  have hadd : intAdd 0 bytes.length = some (bytes.length : ℤ) := by
    have h : intAdd ((0 : ℕ) : ℤ) bytes.length = _ := intAdd_natCast (by omega)
    rw [Nat.zero_add] at h
    exact h
  have hload := load_all bytes
  have hcreate : stepOp (rbufCreate bytes.length mem) (.setMode .overwrite) =
      some (natState ((List.range bytes.length).map mem) 0 0 0 .overwrite, 0, []) := by
    simp [stepOp, rbufSetMode, rbufCreate, hnil]
  have hfill : stepOp (natState ((List.range bytes.length).map mem) 0 0 0 .overwrite)
      (.write bytes) =
        some (natState bytes bytes.length 0 bytes.length .overwrite,
          (bytes.length : ℤ), []) := by
    have hlen : bytes.length = ((List.range bytes.length).map mem).length := by simp
    have hstore := store_all hlen
    simp [stepOp, rbufWrite, writeBytes, hnil, hload, hstore, hadd]
  have hread : stepOp (natState bytes bytes.length 0 bytes.length .overwrite)
      (.read bytes.length) =
        some (natState bytes 0 bytes.length bytes.length .overwrite,
          (bytes.length : ℤ), bytes) := by
    simp [stepOp, rbufRead, hload, hadd]
  have hrefill : stepOp (natState bytes 0 bytes.length bytes.length .overwrite)
      (.write bytes) =
        some (natState bytes bytes.length bytes.length bytes.length .overwrite,
          (bytes.length : ℤ), []) := by
    have hnone : load bytes 0 0 = some [] := load_natCast (Nat.zero_le _)
    have hkeep : store bytes bytes.length [] = some bytes := by
      rw [store_natCast (by simp)]
      simp [Circular.overwrite]
    have hstore := store_all (rfl : bytes.length = bytes.length)
    simp [stepOp, rbufWrite, writeBytes, hnil, hpos, hnone, hkeep, hload, hstore, hadd]
  have hlast : stepOp (natState bytes bytes.length bytes.length bytes.length .overwrite)
      (.write bytes) = none := by
    simp [stepOp, rbufWrite, hnil, hpos, intAdd_of_overflow hover]
  rw [fullTurn, runSteps_cons_of_step hcreate, runSteps_cons_of_step hfill,
    runSteps_cons_of_step hread, runSteps_cons_of_step hrefill]
  simp [runSteps, hlast]

/-- At the largest size the sum is `2 ^ 31`. -/
theorem fullTurn_overflows :
    runSteps stepOp (rbufCreate ((2 ^ 30 : ℕ) : ℤ) fun _ => 0)
      (fullTurn (List.replicate (2 ^ 30) 0)) = none := by
  have hlen : (List.replicate (2 ^ 30) (0 : UInt8)).length = 2 ^ 30 := List.length_replicate
  have hpos : 0 < (List.replicate (2 ^ 30) (0 : UInt8)).length := by
    rw [hlen]
    decide
  have hrun := fullTurn_eq_none hpos hlen.le (by rw [hlen]; decide) (fun _ => 0)
  rw [hlen] at hrun
  exact hrun

end RBuf
end LibHL
