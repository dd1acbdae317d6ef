import LibHL.RBuf.Move

/-!
# Copying bytes into another buffer

`rbuf_copy` has offsets of its own where `rbuf_move` reads.  From a source whose bytes may go
round it reads up to the end of the array whatever is asked for, or starts at the read offset
of the destination.  So both leave the same bytes in the destination only where these slips do
not show.
-/

namespace LibHL
namespace RBuf

open Circular

variable {src dst : RBuf} {bytes : List UInt8} {n c r w e : ℕ}

/-- `rbuf_copy` and `rbuf_move` return the same number and leave the same contents in the
destination, and `rbuf_copy` leaves the source as it is. -/
def CopiesAsMove (src dst : RBuf) (len : ℕ) : Prop :=
  ∃ moved dst₁ dst₂ k, rbufMove src dst len = some (moved, dst₁, k) ∧
    rbufCopy src dst len = some (src, dst₂, k) ∧ contents dst₂ = contents dst₁

/-- The number of bytes from the read offset to the end of the array. -/
def toEnd (rb : RBuf) : ℕ := (rb.size - rb.rfx).toNat

/-- The `n` bytes from `off` on, of which the first `k` are taken from there and the others
from the beginning. -/
def pieces (buf : List UInt8) (off k n : ℕ) : List UInt8 :=
  (buf.drop off).take (min k n) ++ buf.take (n - k)

/-- The place in the array of the `k`-th byte that a buffer hands out. -/
def shownAt (rb : RBuf) (k : ℕ) : ℕ := (rb.rfx.toNat + k) % rb.buf.length

/-- Which of `n` bytes a split copy leaves at place `p`. -/
def landed (dst : RBuf) (n p : ℕ) : Option ℕ :=
  let contiguous := (contiguousSize dst).toNat
  if p < n - contiguous then
    some (contiguous + p)
  else if dst.wfx.toNat ≤ p ∧ p < dst.wfx.toNat + contiguous then
    some (p - dst.wfx.toNat)
  else
    none

/-- The bytes of the first piece that the destination shows are the same at both offsets. -/
def SameFront (src dst : RBuf) (n : ℕ) : Prop :=
  ∀ k < n, ∀ j < toEnd src, landed dst n (shownAt dst k) = some j →
    src.buf[dst.rfx.toNat + j]? = src.buf[src.rfx.toNat + j]?

/-- What is there where the second piece belongs is the same. -/
def SameRest (src dst : RBuf) (n : ℕ) : Prop :=
  ∀ k < n, shownAt dst k < n - (contiguousSize dst).toNat →
    (if dst.wfx.toNat ≤ shownAt dst k ∧
        shownAt dst k < dst.wfx.toNat + (contiguousSize dst).toNat then
      src.buf[dst.rfx.toNat + (shownAt dst k - dst.wfx.toNat)]?
    else
      dst.buf[shownAt dst k]?) = src.buf[shownAt dst k]?

/-- Nothing is asked for, or the offsets lie in their arrays and one of these is met: the
source has the bytes in one piece; it has not, they fill its end, and the destination has room
in one piece; it has not either, and the bytes at the wrong offset are the same. -/
def CopyFits (src dst : RBuf) (len : ℕ) : Prop :=
  len = 0 ∨ (dst.wfx ≤ dst.size ∧ src.rfx ≤ src.size ∧
    if src.rfx < src.wfx then
      movedSize src dst len ≤ toEnd src
    else if (movedSize src dst len : ℤ) ≤ contiguousSize dst then
      toEnd src ≤ movedSize src dst len ∧
        dst.wfx + toEnd src + movedSize src dst len ≤ INT_MAX
    else
      dst.rfx + min (toEnd src) (movedSize src dst len) ≤ src.size ∧
        SameFront src dst (movedSize src dst len) ∧
        (toEnd src = contiguousSize dst → SameRest src dst (movedSize src dst len)))

/-! ## What a move writes -/

theorem rbufRead_with_wfx (rb : RBuf) (wfx k : ℤ) :
    rbufRead { rb with wfx := wfx } k =
      (rbufRead rb k).map fun r => ({ r.1 with wfx := wfx }, r.2) := by
  obtain ⟨m, hm⟩ : ∃ m, (if rb.used < k then rb.used else k) = m := ⟨_, rfl⟩
  rw [rbufRead, rbufRead, hm]
  by_cases hround : rb.size - rb.rfx < m
  · simp only [if_pos hround, Option.bind_eq_bind, Option.map_bind, Function.comp_def,
      Option.map_some]
  · simp only [if_neg hround, Option.bind_eq_bind, Option.map_bind, Function.comp_def,
      Option.map_some]

theorem rbufMove_with_wfx (src dst : RBuf) (wfx len : ℤ) :
    rbufMove { src with wfx := wfx } dst len =
      (rbufMove src dst len).map fun r => ({ r.1 with wfx := wfx }, r.2) := by
  have hsize : copySize { src with wfx := wfx } dst len = copySize src dst len := rfl
  rw [rbufMove, rbufMove, rbufCopyInternal, rbufCopyInternal]
  by_cases hlen : len = 0
  · rw [if_pos hlen, if_pos hlen]
    rfl
  rw [if_neg hlen, if_neg hlen]
  dsimp only
  rw [hsize]
  by_cases hstraight : copySize src dst len ≤ contiguousSize dst
  · rw [if_pos hstraight, if_pos hstraight, copyStraight, copyStraight, if_pos rfl, if_pos rfl]
    simp only [rbufRead_with_wfx, Option.bind_eq_bind, Option.bind_map, Option.map_bind,
      Function.comp_def, Option.map_some]
  · rw [if_neg hstraight, if_neg hstraight, copySplit, copySplit, if_pos rfl, if_pos rfl]
    simp only [rbufRead_with_wfx, Option.bind_eq_bind, Option.bind_map, Option.map_bind,
      Function.comp_def, Option.map_some]

theorem contents_take (h : Ranges src) (hr : src.rfx ≤ src.size) (hn : (n : ℤ) ≤ src.used) :
    (contents src).take n = pieces src.buf src.rfx.toNat (toEnd src) n := by
  have hlen := h.length_buf
  have hu := h.used_le
  have hr₀ := h.rfx_nonneg
  have hend : src.buf.length - src.rfx.toNat = toEnd src := by
    rw [toEnd]
    omega
  rw [contents, take_window _ _ (by omega), window_pieces (by omega) (by omega), hend, pieces]
  congr 1
  rw [List.take_eq_take_iff, List.length_drop]
  omega

/-- A move whose offsets lie in the arrays is total. -/
theorem rbufMove_pieces (hsrc : Ranges src) (hr : src.rfx ≤ src.size) (hdst : Ranges dst)
    (hw : dst.wfx ≤ dst.size) {len : ℕ} (hlen : len ≠ 0) :
    ∃ moved, rbufMove src dst len = some (moved, movedInto dst
      (pieces src.buf src.rfx.toNat (toEnd src) (movedSize src dst len)),
      (movedSize src dst len : ℤ)) := by
  have hpos := hsrc.size_pos
  -- A write offset that agrees with the others makes no difference.
  have hwfx₀ : 0 ≤ (src.rfx + src.used) % src.size := Int.emod_nonneg _ hpos.ne'
  have hwfx : (src.rfx + src.used) % src.size < src.size := Int.emod_lt_of_pos _ hpos
  obtain ⟨wfx, hmod⟩ : ∃ wfx, (src.rfx + src.used) % src.size = wfx := ⟨_, rfl⟩
  rw [hmod] at hwfx₀ hwfx
  have hranges : Ranges { src with wfx := wfx } :=
    ⟨hpos, hsrc.size_le, hsrc.length_buf, hsrc.used_nonneg, hsrc.used_le, hsrc.rfx_nonneg,
      hwfx₀, Or.inl hr⟩
  have hagrees : Agrees { src with wfx := wfx } := by
    refine ⟨?_, hwfx.le⟩
    show src.rfx + src.used ≡ wfx [ZMOD src.size]
    rw [← hmod]
    exact (Int.mod_modEq _ _).symm
  obtain ⟨moved, hrun, -⟩ := rbufMove_eq hranges hagrees hdst hw hlen
  rw [rbufMove_with_wfx] at hrun
  obtain ⟨⟨moved', dst', k⟩, hrun', heq⟩ := Option.map_eq_some_iff.mp hrun
  obtain ⟨-, -, hstored, -⟩ := copySize_bounds hsrc hdst (Int.natCast_nonneg len)
  rw [copySize_eq hsrc hdst len] at hstored
  cases heq
  refine ⟨moved', ?_⟩
  rw [hrun']
  have hsame : (contents { src with wfx := wfx }).take (movedSize src dst len) =
      pieces src.buf src.rfx.toNat (toEnd src) (movedSize src dst len) :=
    contents_take hranges hr hstored
  exact congrArg (fun b => some (moved', movedInto dst b, (movedSize src dst len : ℤ))) hsame

/-! ## What a copy writes -/

theorem length_pieces {buf : List UInt8} {off : ℕ} (hoff : off + min e n ≤ buf.length)
    (hn : n ≤ buf.length) : (pieces buf off e n).length = n := by
  rw [pieces, List.length_append, List.length_take, List.length_drop, List.length_take]
  omega

theorem getElem?_pieces {buf : List UInt8} {off j : ℕ} (hoff : off + min e n ≤ buf.length)
    (hj : j < n) :
    (pieces buf off e n)[j]? = if j < e then buf[off + j]? else buf[j - e]? := by
  have hfront : ((buf.drop off).take (min e n)).length = min e n := by
    rw [List.length_take, List.length_drop]
    omega
  by_cases hlt : j < e
  · rw [if_pos hlt, pieces, List.getElem?_append_left (by omega),
      List.getElem?_take_of_lt (by omega), List.getElem?_drop]
  · have hrest : j - min e n = j - e := by omega
    rw [if_neg hlt, pieces, List.getElem?_append_right (by omega), hfront, hrest,
      List.getElem?_take_of_lt (by omega)]

theorem pieces_of_le {buf : List UInt8} {off : ℕ} (hn : n ≤ e) :
    pieces buf off e n = (buf.drop off).take n := by
  rw [pieces, Nat.min_eq_right hn, Nat.sub_eq_zero_of_le hn, List.take_zero, List.append_nil]

/-- From bytes in one piece into room in one piece. -/
theorem copyStraight_forward (hdst : Ranges dst) (hsrc : src.rfx < src.wfx) (hr : src.rfx = r)
    (hw : dst.wfx = w) (hfit : r + n ≤ src.buf.length) (hroom : w + n ≤ dst.buf.length) :
    copyStraight src dst n false = some (src, { dst with
      buf := overwrite dst.buf w ((src.buf.drop r).take n), wfx := dst.wfx + n, used := n }) := by
  have hlen := hdst.length_buf
  have hmax := hdst.size_le
  have hINT : INT_MAX = 2 ^ 31 - 1 := rfl
  have htake : ((src.buf.drop r).take n).length ≤ n := List.length_take_le _ _
  have hadd : intAdd w n = some ((w + n : ℕ) : ℤ) := intAdd_natCast (by omega)
  rw [copyStraight, if_neg Bool.false_ne_true, if_pos hsrc, hr, hw, load_natCast hfit]
  simp only [Option.bind_eq_bind, Option.bind_some, store_natCast (by omega :
    w + ((src.buf.drop r).take n).length ≤ dst.buf.length), hadd, Nat.cast_add]

/-- From bytes that may go round into room in one piece: the write offset advances by the
bytes up to the end twice. -/
theorem copyStraight_around (hsrc : ¬ src.rfx < src.wfx) (hr : src.rfx = r)
    (hw : dst.wfx = w) (he : src.size - src.rfx = e) (hend : r + e = src.buf.length) (hen : e ≤ n)
    (hn : n ≤ src.buf.length) (hroom : w + n ≤ dst.buf.length) (hmax : w + e + n < 2 ^ 31) :
    copyStraight src dst n false = some (src, { dst with
      buf := overwrite dst.buf w (pieces src.buf r e n), wfx := w + e + n, used := n }) := by
  have hfront : load src.buf r e = some ((src.buf.drop r).take (min e n)) := by
    rw [load_natCast hend.le, Nat.min_eq_left hen]
  have hback : load src.buf 0 ((n : ℤ) - e) = some (src.buf.take (n - e)) := by
    have hrest : (n : ℤ) - e = ((n - e : ℕ) : ℤ) := by omega
    have hload : load src.buf ((0 : ℕ) : ℤ) ((n - e : ℕ) : ℤ) = _ := load_natCast (by omega)
    rwa [hrest]
  have hfrontLen : ((src.buf.drop r).take (min e n)).length = e := by
    rw [List.length_take, List.length_drop]
    omega
  have hbackLen : (src.buf.take (n - e)).length = n - e := List.length_take_of_le (by omega)
  have hstore : store dst.buf w ((src.buf.drop r).take (min e n)) = some _ :=
    store_natCast (by omega)
  have hkept := (store_eq_some hstore).2.2
  have hstore' : store (overwrite dst.buf w ((src.buf.drop r).take (min e n)))
      ((w + e : ℕ) : ℤ) (src.buf.take (n - e)) = some _ := store_natCast (by omega)
  have hboth : overwrite (overwrite dst.buf w ((src.buf.drop r).take (min e n))) (w + e)
      (src.buf.take (n - e)) = overwrite dst.buf w (pieces src.buf r e n) := by
    have happend : overwrite (overwrite dst.buf w ((src.buf.drop r).take (min e n)))
        (w + ((src.buf.drop r).take (min e n)).length) (src.buf.take (n - e)) = _ :=
      overwrite_append _ (by omega)
    rwa [hfrontLen] at happend
  have hadd : intAdd w e = some ((w + e : ℕ) : ℤ) := intAdd_natCast (by omega)
  have hadd' : intAdd ((w + e : ℕ) : ℤ) n = some ((w + e + n : ℕ) : ℤ) :=
    intAdd_natCast (by omega)
  rw [copyStraight, if_neg Bool.false_ne_true, if_neg hsrc]
  dsimp only
  rw [he, hr, hw, hfront]
  simp only [Option.bind_eq_bind, Option.bind_some, hstore, hadd, hback, hstore', hadd', hboth]
  rw [Nat.cast_add, Nat.cast_add]

/-- It has no result if the bytes asked for do not fill the end of the source, or the write
offset overflows. -/
theorem copyStraight_around_needs {src' dst' : RBuf} (hsrc : ¬ src.rfx < src.wfx)
    (hrun : copyStraight src dst n false = some (src', dst')) :
    src.size - src.rfx ≤ n ∧ dst.wfx + (src.size - src.rfx) + n ≤ INT_MAX := by
  rw [copyStraight, if_neg Bool.false_ne_true, if_neg hsrc] at hrun
  obtain ⟨front, -, hrun⟩ := Option.bind_eq_some_iff.mp hrun
  obtain ⟨buf, -, hrun⟩ := Option.bind_eq_some_iff.mp hrun
  obtain ⟨wfx, hwfx, hrun⟩ := Option.bind_eq_some_iff.mp hrun
  obtain ⟨back, hback, hrun⟩ := Option.bind_eq_some_iff.mp hrun
  obtain ⟨buf', -, hrun⟩ := Option.bind_eq_some_iff.mp hrun
  obtain ⟨wfx', hwfx', -⟩ := Option.bind_eq_some_iff.mp hrun
  obtain ⟨-, hrest, -, -⟩ := load_eq_some hback
  obtain rfl := intAdd_eq_some hwfx
  refine ⟨by omega, ?_⟩
  by_contra hover
  rw [intAdd_of_overflow (Int.not_le.mp hover)] at hwfx'
  cases hwfx'

/-- From bytes in one piece into room in two. -/
theorem copySplit_forward (hsrc : Ranges src) (hlt : src.rfx < src.wfx) (hr : src.rfx = r)
    (hw : dst.wfx = w) (hfit : r + n ≤ src.buf.length) (hroom : w + c ≤ dst.buf.length)
    (hshort : c < n) (hn : n ≤ dst.buf.length) :
    copySplit src dst n c false = some (src, { dst with
      buf := overwrite (overwrite dst.buf w (((src.buf.drop r).take n).take c)) 0
        (((src.buf.drop r).take n).drop c)
      wfx := n - c
      used := n }) := by
  have hlen := hsrc.length_buf
  have hmax := hsrc.size_le
  have hINT : INT_MAX = 2 ^ 31 - 1 := rfl
  have hrest : (n : ℤ) - c = ((n - c : ℕ) : ℤ) := by omega
  have hfront : load src.buf r c = some (((src.buf.drop r).take n).take c) := by
    rw [load_natCast (by omega), List.take_take, Nat.min_eq_left hshort.le]
  have hback : load src.buf ((r + c : ℕ) : ℤ) ((n - c : ℕ) : ℤ) =
      some (((src.buf.drop r).take n).drop c) := by
    rw [load_natCast (by omega), List.drop_take, List.drop_drop]
  have hfrontLen : (((src.buf.drop r).take n).take c).length ≤ c := List.length_take_le _ _
  have hbackLen : (((src.buf.drop r).take n).drop c).length ≤ n - c := by
    rw [List.length_drop, List.length_take]
    omega
  have hstore : store dst.buf w (((src.buf.drop r).take n).take c) = some _ :=
    store_natCast (by omega)
  have hkept := (store_eq_some hstore).2.2
  have hstore' : store (overwrite dst.buf w (((src.buf.drop r).take n).take c))
      ((0 : ℕ) : ℤ) (((src.buf.drop r).take n).drop c) = some _ := store_natCast (by omega)
  rw [Int.natCast_zero] at hstore'
  have hadd : intAdd r c = some ((r + c : ℕ) : ℤ) := intAdd_natCast (by omega)
  rw [copySplit, if_neg Bool.false_ne_true, if_pos hlt, hr, hw, hrest, hfront]
  simp only [Option.bind_eq_bind, Option.bind_some, hstore, hadd, hback, hstore']

theorem cut_pieces_front {buf : List UInt8} {off : ℕ} (hc : c ≤ min e n)
    (hoff : off + min e n ≤ buf.length) :
    (pieces buf off e n).take c = (buf.drop off).take c ∧
      (pieces buf off e n).drop c = (buf.drop (off + c)).take (min e n - c) ++ buf.take (n - e) := by
  have hfront : ((buf.drop off).take (min e n)).length = min e n := by
    rw [List.length_take, List.length_drop]
    omega
  constructor
  · rw [pieces, List.take_append_of_le_length (by omega), List.take_take, Nat.min_eq_left hc]
  · rw [pieces, List.drop_append_of_le_length (by omega), List.drop_take, List.drop_drop]

theorem cut_pieces_back {buf : List UInt8} {off : ℕ} (hec : e ≤ c) (hcn : c ≤ n)
    (hoff : off + min e n ≤ buf.length) :
    (pieces buf off e n).take c = (buf.drop off).take e ++ buf.take (c - e) ∧
      (pieces buf off e n).drop c = (buf.drop (c - e)).take (n - c) := by
  have hfront : ((buf.drop off).take e).length = e := by
    rw [List.length_take, List.length_drop]
    omega
  rw [pieces, Nat.min_eq_left (hec.trans hcn)]
  constructor
  · rw [List.take_append, hfront, List.take_of_length_le (by omega), List.take_take,
      Nat.min_eq_left (by omega)]
  · have hrest : n - e - (c - e) = n - c := by omega
    rw [List.drop_append, hfront, List.drop_of_length_le (by omega), List.nil_append,
      List.drop_take, hrest]

section Round

variable (hd : dst.rfx = r) (hw : dst.wfx = w) (he : src.size - src.rfx = e)
  (hmax : src.buf.length < 2 ^ 31) (hmax' : dst.buf.length < 2 ^ 31)
  (hroom : w + c ≤ dst.buf.length) (hshort : c < n) (hn : n ≤ src.buf.length)
  (hn' : n ≤ dst.buf.length)

include hd hw he hmax hmax' hroom hshort hn hn'

/-- The copies of the two pieces, which start at the read offset of the destination. -/
theorem copyRound_eq (hoff : r + min e n ≤ src.buf.length) (hne : e ≠ c) :
    copyRound src dst c ((n - c : ℕ) : ℤ) =
      some (overwrite (overwrite dst.buf w ((pieces src.buf r e n).take c)) 0
        ((pieces src.buf r e n).drop c)) := by
  have hlength := length_pieces hoff hn
  have htake : ((pieces src.buf r e n).take c).length = c := List.length_take_of_le (by omega)
  have hdrop : ((pieces src.buf r e n).drop c).length = n - c := by
    rw [List.length_drop, hlength]
  have hfirst : (overwrite dst.buf w ((pieces src.buf r e n).take c)).length = dst.buf.length :=
    length_overwrite (by omega)
  rw [copyRound]
  dsimp only
  rw [he, hd, hw]
  by_cases hlong : c < e
  · have hfront : load src.buf r c = some ((pieces src.buf r e n).take c) := by
      rw [load_natCast (by omega), (cut_pieces_front (by omega) hoff).1]
    have hstore : store dst.buf w ((pieces src.buf r e n).take c) = some _ :=
      store_natCast (by omega)
    have hadd : intAdd r c = some ((r + c : ℕ) : ℤ) := intAdd_natCast (by omega)
    have hdiff : (e : ℤ) - c = ((e - c : ℕ) : ℤ) := by omega
    rw [if_pos (by omega : (c : ℤ) < e), hfront]
    simp only [Option.bind_eq_bind, Option.bind_some, hstore, hadd, hdiff]
    by_cases hpart : n < e
    · -- The source does not go round.
      have hback : load src.buf ((r + c : ℕ) : ℤ) ((n - c : ℕ) : ℤ) =
          some ((pieces src.buf r e n).drop c) := by
        rw [load_natCast (by omega), (cut_pieces_front (by omega) hoff).2,
          Nat.min_eq_right hpart.le, Nat.sub_eq_zero_of_le hpart.le, List.take_zero,
          List.append_nil]
      have hstore' : store (overwrite dst.buf w ((pieces src.buf r e n).take c)) ((0 : ℕ) : ℤ)
          ((pieces src.buf r e n).drop c) = some _ := store_natCast (by omega)
      rw [if_pos (by omega), hback]
      exact hstore'
    · obtain ⟨-, hcut⟩ := cut_pieces_front (c := c) (by omega) hoff
      rw [Nat.min_eq_left (by omega)] at hcut
      have hmiddle : load src.buf ((r + c : ℕ) : ℤ) ((e - c : ℕ) : ℤ) =
          some ((src.buf.drop (r + c)).take (e - c)) := load_natCast (by omega)
      have hmiddleLen : ((src.buf.drop (r + c)).take (e - c)).length = e - c := by
        rw [List.length_take, List.length_drop]
        omega
      have hrest : ((n - c : ℕ) : ℤ) - ((e - c : ℕ) : ℤ) = ((n - e : ℕ) : ℤ) := by omega
      have hback : load src.buf ((0 : ℕ) : ℤ) ((n - e : ℕ) : ℤ) = some (src.buf.take (n - e)) :=
        load_natCast (by omega)
      have hbackLen : (src.buf.take (n - e)).length = n - e := List.length_take_of_le (by omega)
      have hstore' : store (overwrite dst.buf w ((pieces src.buf r e n).take c)) ((0 : ℕ) : ℤ)
          ((src.buf.drop (r + c)).take (e - c)) = some _ := store_natCast (by omega)
      have hkept := (store_eq_some hstore').2.2
      have hstore'' : store (overwrite (overwrite dst.buf w ((pieces src.buf r e n).take c)) 0
          ((src.buf.drop (r + c)).take (e - c))) ((e - c : ℕ) : ℤ) (src.buf.take (n - e)) =
          some _ := store_natCast (by omega)
      rw [Int.natCast_zero] at hback hstore'
      rw [if_neg (by omega)]
      simp only [hmiddle, Option.bind_some, hstore', hrest, hback, hstore'']
      have happend : overwrite (overwrite (overwrite dst.buf w ((pieces src.buf r e n).take c)) 0
          ((src.buf.drop (r + c)).take (e - c)))
          (0 + ((src.buf.drop (r + c)).take (e - c)).length) (src.buf.take (n - e)) = _ :=
        overwrite_append _ (by omega)
      rw [hmiddleLen, Nat.zero_add] at happend
      rw [happend, hcut]
  · obtain ⟨hcut, hcut'⟩ := cut_pieces_back (c := c) (by omega) hshort.le hoff
    have hfront : load src.buf r e = some ((src.buf.drop r).take e) := load_natCast (by omega)
    have hfrontLen : ((src.buf.drop r).take e).length = e := by
      rw [List.length_take, List.length_drop]
      omega
    have hdiff : (c : ℤ) - e = ((c - e : ℕ) : ℤ) := by omega
    have hmiddle : load src.buf ((0 : ℕ) : ℤ) ((c - e : ℕ) : ℤ) = some (src.buf.take (c - e)) :=
      load_natCast (by omega)
    have hmiddleLen : (src.buf.take (c - e)).length = c - e := List.length_take_of_le (by omega)
    have hback : load src.buf ((c - e : ℕ) : ℤ) ((n - c : ℕ) : ℤ) =
        some ((pieces src.buf r e n).drop c) := by
      rw [load_natCast (by omega), hcut']
    have hstore : store dst.buf w ((src.buf.drop r).take e) = some _ := store_natCast (by omega)
    have hkept := (store_eq_some hstore).2.2
    have hadd : intAdd w e = some ((w + e : ℕ) : ℤ) := intAdd_natCast (by omega)
    have hstore' : store (overwrite dst.buf w ((src.buf.drop r).take e)) ((w + e : ℕ) : ℤ)
        (src.buf.take (c - e)) = some _ := store_natCast (by omega)
    have happend : overwrite (overwrite dst.buf w ((src.buf.drop r).take e))
        (w + ((src.buf.drop r).take e).length) (src.buf.take (c - e)) = _ :=
      overwrite_append _ (by omega)
    rw [hfrontLen, ← hcut] at happend
    have hstore'' : store (overwrite dst.buf w ((pieces src.buf r e n).take c)) ((0 : ℕ) : ℤ)
        ((pieces src.buf r e n).drop c) = some _ := store_natCast (by omega)
    rw [Int.natCast_zero] at hmiddle
    rw [if_neg (by omega : ¬ (c : ℤ) < e), hfront]
    simp only [Option.bind_eq_bind, Option.bind_some, hstore, hdiff]
    rw [if_neg (by omega)]
    simp only [hmiddle, Option.bind_some, hadd, hstore', hback, happend]
    exact hstore''

end Round

/-- The second piece is left out if the first one ends with the array. -/
theorem copyRound_forgets {remainder : ℤ} (hd : dst.rfx = r) (hw : dst.wfx = w)
    (he : src.size - src.rfx = c) (hroom : w + c ≤ dst.buf.length)
    (hoff : r + c ≤ src.buf.length) :
    copyRound src dst c remainder = some (overwrite dst.buf w ((src.buf.drop r).take c)) := by
  have hfrontLen : ((src.buf.drop r).take c).length ≤ c := List.length_take_le _ _
  have hstore : store dst.buf w ((src.buf.drop r).take c) = some _ := store_natCast (by omega)
  rw [copyRound]
  dsimp only
  rw [he, hd, hw, if_neg (lt_irrefl _), load_natCast hoff]
  simp only [Option.bind_eq_bind, Option.bind_some, hstore]
  rw [if_pos (Int.sub_self _)]

/-- The bytes that start at the wrong offset have to lie in the array. -/
theorem copyRound_needs {buf : List UInt8} (hd : dst.rfx = r) (he : src.size - src.rfx = e)
    (hshort : c < n) (hrun : copyRound src dst c ((n - c : ℕ) : ℤ) = some buf) :
    r + min e n ≤ src.buf.length := by
  rw [copyRound] at hrun
  dsimp only at hrun
  rw [he, hd] at hrun
  by_cases hlong : (c : ℤ) < e
  · rw [if_pos hlong] at hrun
    obtain ⟨front, -, hrun⟩ := Option.bind_eq_some_iff.mp hrun
    obtain ⟨buf₁, -, hrun⟩ := Option.bind_eq_some_iff.mp hrun
    obtain ⟨next, hnext, hrun⟩ := Option.bind_eq_some_iff.mp hrun
    obtain rfl := intAdd_eq_some hnext
    by_cases hpart : ((n - c : ℕ) : ℤ) < (e : ℤ) - c
    · rw [if_pos hpart] at hrun
      obtain ⟨back, hback, -⟩ := Option.bind_eq_some_iff.mp hrun
      have := (load_eq_some hback).2.2.1
      omega
    · rw [if_neg hpart] at hrun
      obtain ⟨middle, hmiddle, -⟩ := Option.bind_eq_some_iff.mp hrun
      have := (load_eq_some hmiddle).2.2.1
      omega
  · rw [if_neg hlong] at hrun
    obtain ⟨front, hfront, -⟩ := Option.bind_eq_some_iff.mp hrun
    have := (load_eq_some hfront).2.2.1
    omega

/-- A source with fewer bytes in one piece than it has to copy fails. -/
theorem rbufCopyInternal_forward_needs {src' dst' : RBuf} {len k : ℤ} (hsrc : Ranges src)
    (hlt : src.rfx < src.wfx) (hlen : len ≠ 0)
    (hrun : rbufCopyInternal src dst len false = some (src', dst', k)) :
    src.rfx + copySize src dst len ≤ src.size := by
  have hlength := hsrc.length_buf
  rw [rbufCopyInternal, if_neg hlen] at hrun
  obtain ⟨⟨s, d⟩, hcopy, -⟩ := Option.map_eq_some_iff.mp hrun
  by_cases hstraight : copySize src dst len ≤ contiguousSize dst
  · rw [if_pos hstraight, copyStraight, if_neg Bool.false_ne_true, if_pos hlt] at hcopy
    obtain ⟨bytes, hbytes, -⟩ := Option.bind_eq_some_iff.mp hcopy
    have := (load_eq_some hbytes).2.2.1
    omega
  · rw [if_neg hstraight, copySplit, if_neg Bool.false_ne_true, if_pos hlt] at hcopy
    obtain ⟨front, -, hcopy⟩ := Option.bind_eq_some_iff.mp hcopy
    obtain ⟨buf, -, hcopy⟩ := Option.bind_eq_some_iff.mp hcopy
    obtain ⟨next, hnext, hcopy⟩ := Option.bind_eq_some_iff.mp hcopy
    obtain rfl := intAdd_eq_some hnext
    obtain ⟨back, hback, -⟩ := Option.bind_eq_some_iff.mp hcopy
    have := (load_eq_some hback).2.2.1
    omega

/-! ## What the destination shows -/

/-- Where the bytes of a split copy are afterwards. -/
theorem getElem?_split {xs buf : List UInt8} (hroom : w + c ≤ buf.length) (hc : c ≤ xs.length)
    (hfit : xs.length ≤ buf.length) (p : ℕ) :
    (overwrite (overwrite buf w (xs.take c)) 0 (xs.drop c))[p]? =
      if p < xs.length - c then xs[c + p]?
      else if w ≤ p ∧ p < w + c then xs[p - w]? else buf[p]? := by
  have htake : (xs.take c).length = c := List.length_take_of_le hc
  have hdrop : (xs.drop c).length = xs.length - c := List.length_drop
  have hfirst : (overwrite buf w (xs.take c)).length = buf.length :=
    length_overwrite (by omega)
  rw [getElem?_overwrite (by omega), getElem?_overwrite (by omega), hdrop, htake, Nat.zero_add,
    Nat.sub_zero, List.getElem?_drop]
  by_cases hback : p < xs.length - c
  · rw [if_pos ⟨Nat.zero_le p, hback⟩, if_pos hback]
  · rw [if_neg fun hin => hback hin.2, if_neg hback]
    by_cases hfront : w ≤ p ∧ p < w + c
    · rw [if_pos hfront, if_pos hfront, List.getElem?_take_of_lt (by omega)]
    · rw [if_neg hfront, if_neg hfront]

/-- The array of the destination after `bytes` went into two pieces of it. -/
def splitInto (dst : RBuf) (bytes : List UInt8) : List UInt8 :=
  overwrite (overwrite dst.buf dst.wfx.toNat (bytes.take (contiguousSize dst).toNat)) 0
    (bytes.drop (contiguousSize dst).toNat)

section Shown

variable (hdst : Ranges dst) (hw : dst.wfx ≤ dst.size) (hshort : contiguousSize dst < n)
  (hn : n ≤ src.buf.length) (hn' : n ≤ dst.buf.length)

include hdst hw hshort hn hn'

theorem length_splitInto {off : ℕ} (hoff : off + min e n ≤ src.buf.length) :
    (splitInto dst (pieces src.buf off e n)).length = dst.buf.length := by
  obtain ⟨hc₀, hcw⟩ := contiguousSize_bounds hdst hw
  have hlen := hdst.length_buf
  have hw₀ := hdst.wfx_nonneg
  have hpieces := length_pieces hoff hn
  have hfirst : (overwrite dst.buf dst.wfx.toNat
      ((pieces src.buf off e n).take (contiguousSize dst).toNat)).length = dst.buf.length := by
    apply length_overwrite
    rw [List.length_take]
    omega
  rw [splitInto, ← hfirst]
  apply length_overwrite
  rw [hfirst, List.length_drop]
  omega

theorem getElem?_splitInto {off : ℕ} (hoff : off + min e n ≤ src.buf.length) (p : ℕ) :
    (splitInto dst (pieces src.buf off e n))[p]? =
      (landed dst n p).elim dst.buf[p]? fun j =>
        if j < e then src.buf[off + j]? else src.buf[j - e]? := by
  obtain ⟨hc₀, hcw⟩ := contiguousSize_bounds hdst hw
  have hlen := hdst.length_buf
  have hw₀ := hdst.wfx_nonneg
  have hpieces := length_pieces hoff hn
  rw [splitInto, getElem?_split (by omega) (by omega) (by omega), hpieces, landed]
  by_cases hback : p < n - (contiguousSize dst).toNat
  · rw [if_pos hback, if_pos hback, Option.elim_some, getElem?_pieces hoff (by omega)]
  · rw [if_neg hback, if_neg hback]
    by_cases hfront : dst.wfx.toNat ≤ p ∧ p < dst.wfx.toNat + (contiguousSize dst).toNat
    · rw [if_pos hfront, if_pos hfront, Option.elim_some, getElem?_pieces hoff (by omega)]
    · rw [if_neg hfront, if_neg hfront, Option.elim_none]

variable (hsoff : src.rfx.toNat + min (toEnd src) n ≤ src.buf.length)
  (hdoff : dst.rfx.toNat + min (toEnd src) n ≤ src.buf.length)

include hsoff hdoff

/-- The bytes of a split copy from the wrong offset show the same exactly if those of the first
piece do. -/
theorem window_splitInto_iff :
    window (splitInto dst (pieces src.buf dst.rfx.toNat (toEnd src) n)) dst.rfx.toNat n =
      window (splitInto dst (pieces src.buf src.rfx.toNat (toEnd src) n)) dst.rfx.toNat n ↔
      SameFront src dst n := by
  have hlen₁ := length_splitInto hdst hw hshort hn hn' hsoff
  have hlen₂ := length_splitInto hdst hw hshort hn hn' hdoff
  rw [window_eq_iff (hlen₂.trans hlen₁.symm) (hn'.trans hlen₁.ge), hlen₁, SameFront]
  constructor
  · intro hall k hk j hj hlanded
    have heq := hall k hk
    rwa [getElem?_splitInto hdst hw hshort hn hn' hdoff,
      getElem?_splitInto hdst hw hshort hn hn' hsoff, ← shownAt, hlanded, Option.elim_some,
      Option.elim_some, if_pos hj, if_pos hj] at heq
  · intro hsame k hk
    rw [getElem?_splitInto hdst hw hshort hn hn' hdoff,
      getElem?_splitInto hdst hw hshort hn hn' hsoff, ← shownAt]
    cases hlanded : landed dst n (shownAt dst k) with
    | none => rfl
    | some j =>
        rw [Option.elim_some, Option.elim_some]
        by_cases hj : j < toEnd src
        · rw [if_pos hj, if_pos hj, hsame k hk j hj hlanded]
        · rw [if_neg hj, if_neg hj]

/-- If the second piece is left out, what was in its place has to be the same as well. -/
theorem window_overwrite_iff (heq : toEnd src = contiguousSize dst) :
    window (overwrite dst.buf dst.wfx.toNat
        ((src.buf.drop dst.rfx.toNat).take (contiguousSize dst).toNat)) dst.rfx.toNat n =
      window (splitInto dst (pieces src.buf src.rfx.toNat (toEnd src) n)) dst.rfx.toNat n ↔
      SameFront src dst n ∧ SameRest src dst n := by
  obtain ⟨hc₀, hcw⟩ := contiguousSize_bounds hdst hw
  have hlen := hdst.length_buf
  have hw₀ := hdst.wfx_nonneg
  have hlen₁ := length_splitInto hdst hw hshort hn hn' hsoff
  obtain ⟨c, hc⟩ : ∃ c, (contiguousSize dst).toNat = c := ⟨_, rfl⟩
  have hec : toEnd src = c := by omega
  have hfront : ((src.buf.drop dst.rfx.toNat).take c).length = c := by
    rw [List.length_take, List.length_drop]
    omega
  have hlen₂ : (overwrite dst.buf dst.wfx.toNat ((src.buf.drop dst.rfx.toNat).take c)).length =
      dst.buf.length := length_overwrite (by omega)
  have hat : ∀ p, (overwrite dst.buf dst.wfx.toNat ((src.buf.drop dst.rfx.toNat).take c))[p]? =
      if dst.wfx.toNat ≤ p ∧ p < dst.wfx.toNat + c then
        src.buf[dst.rfx.toNat + (p - dst.wfx.toNat)]? else dst.buf[p]? := by
    intro p
    rw [getElem?_overwrite (by omega), hfront]
    by_cases hin : dst.wfx.toNat ≤ p ∧ p < dst.wfx.toNat + c
    · rw [if_pos hin, if_pos hin, List.getElem?_take_of_lt (by omega), List.getElem?_drop]
    · rw [if_neg hin, if_neg hin]
  have hlanded : ∀ p, landed dst n p = if p < n - c then some (c + p)
      else if dst.wfx.toNat ≤ p ∧ p < dst.wfx.toNat + c then some (p - dst.wfx.toNat)
      else none := by
    intro p
    rw [landed, hc]
  have hsplit : ∀ p, (splitInto dst (pieces src.buf src.rfx.toNat c n))[p]? =
      if p < n - c then src.buf[p]?
      else if dst.wfx.toNat ≤ p ∧ p < dst.wfx.toNat + c then
        src.buf[src.rfx.toNat + (p - dst.wfx.toNat)]? else dst.buf[p]? := by
    intro p
    rw [← hec, getElem?_splitInto hdst hw hshort hn hn' hsoff, hlanded, hec]
    by_cases hback : p < n - c
    · rw [if_pos hback, if_pos hback, Option.elim_some, if_neg (by omega), Nat.add_sub_cancel_left]
    · rw [if_neg hback, if_neg hback]
      by_cases hin : dst.wfx.toNat ≤ p ∧ p < dst.wfx.toNat + c
      · rw [if_pos hin, if_pos hin, Option.elim_some, if_pos (by omega)]
      · rw [if_neg hin, if_neg hin, Option.elim_none]
  rw [hc, window_eq_iff (hlen₂.trans hlen₁.symm) (hn'.trans hlen₁.ge), hlen₁, SameFront, SameRest,
    hc, hec]
  constructor
  · intro hall
    constructor
    · intro k hk j hj hland
      have heq := hall k hk
      rw [hat, hsplit, ← shownAt] at heq
      rw [hlanded] at hland
      by_cases hback : shownAt dst k < n - c
      · rw [if_pos hback] at hland
        cases hland
        omega
      rw [if_neg hback] at hland heq
      by_cases hin : dst.wfx.toNat ≤ shownAt dst k ∧ shownAt dst k < dst.wfx.toNat + c
      · rw [if_pos hin] at hland
        rw [if_pos hin, if_pos hin] at heq
        cases hland
        exact heq
      · rw [if_neg hin] at hland
        cases hland
    · intro k hk hback
      have heq := hall k hk
      rwa [hat, hsplit, ← shownAt, if_pos hback] at heq
  · rintro ⟨hfirst, hrest⟩ k hk
    rw [hat, hsplit, ← shownAt]
    by_cases hback : shownAt dst k < n - c
    · rw [if_pos hback, hrest k hk hback]
    rw [if_neg hback]
    by_cases hin : dst.wfx.toNat ≤ shownAt dst k ∧ shownAt dst k < dst.wfx.toNat + c
    · rw [if_pos hin, if_pos hin]
      refine hfirst k hk _ (by omega) ?_
      rw [hlanded, if_neg hback, if_pos hin]
    · rw [if_neg hin, if_neg hin]

end Shown

/-! ## When a copy is a move -/

/-- Both number the same, so all depends on the copy having a result with the same contents. -/
theorem copiesAsMove_iff_contents (hsrc : Ranges src) (hr : src.rfx ≤ src.size)
    (hdst : Ranges dst) (hw : dst.wfx ≤ dst.size) {len : ℕ} (hlen : len ≠ 0) :
    CopiesAsMove src dst len ↔
      ∃ dst₂, rbufCopy src dst len = some (src, dst₂, (movedSize src dst len : ℤ)) ∧
        contents dst₂ = contents (movedInto dst
          (pieces src.buf src.rfx.toNat (toEnd src) (movedSize src dst len))) := by
  obtain ⟨moved, hmove⟩ := rbufMove_pieces hsrc hr hdst hw hlen
  constructor
  · rintro ⟨moved', dst₁, dst₂, k, hmove', hcopy, hsame⟩
    rw [hmove] at hmove'
    cases hmove'
    exact ⟨dst₂, hcopy, hsame⟩
  · rintro ⟨dst₂, hcopy, hsame⟩
    exact ⟨moved, _, dst₂, _, hmove, hcopy, hsame⟩

theorem rbufCopy_straight (hsrc : Ranges src) (hdst : Ranges dst) {len : ℕ} (hlen : len ≠ 0)
    (hc : (movedSize src dst len : ℤ) ≤ contiguousSize dst) :
    rbufCopy src dst len = (copyStraight src dst (movedSize src dst len) false).map
      fun r => (r.1, r.2, (movedSize src dst len : ℤ)) := by
  have hlen' : ¬ (len : ℤ) = 0 := by omega
  rw [rbufCopy, rbufCopyInternal, if_neg hlen', copySize_eq hsrc hdst]
  dsimp only
  rw [if_pos hc]

theorem rbufCopy_split (hsrc : Ranges src) (hdst : Ranges dst) {len : ℕ} (hlen : len ≠ 0)
    (hc : contiguousSize dst < movedSize src dst len) :
    rbufCopy src dst len =
      (copySplit src dst (movedSize src dst len) (contiguousSize dst) false).map
        fun r => (r.1, r.2, (movedSize src dst len : ℤ)) := by
  have hlen' : ¬ (len : ℤ) = 0 := by omega
  rw [rbufCopy, rbufCopyInternal, if_neg hlen', copySize_eq hsrc hdst]
  dsimp only
  rw [if_neg (Int.not_le.mpr hc)]

section Cases

variable {len : ℕ} (hsrc : Ranges src) (hr : src.rfx ≤ src.size) (hdst : Ranges dst)
  (hw : dst.wfx ≤ dst.size) (hlen : len ≠ 0)

include hsrc hr hdst hw hlen

theorem copiesAsMove_iff_forward (hlt : src.rfx < src.wfx) :
    CopiesAsMove src dst len ↔ movedSize src dst len ≤ toEnd src := by
  have hcopySize := copySize_eq hsrc hdst len
  obtain ⟨-, -, hstored, hroom⟩ := copySize_bounds hsrc hdst (Int.natCast_nonneg len)
  rw [hcopySize] at hstored hroom
  obtain ⟨hc₀, hcw⟩ := contiguousSize_bounds hdst hw
  have hslen := hsrc.length_buf
  have hdlen := hdst.length_buf
  have hr₀ := hsrc.rfx_nonneg
  have hw₀ := hdst.wfx_nonneg
  have hu₀ := hdst.used_nonneg
  rw [copiesAsMove_iff_contents hsrc hr hdst hw hlen]
  constructor
  · rintro ⟨dst₂, hcopy, -⟩
    have hneeds := rbufCopyInternal_forward_needs hsrc hlt (by omega) hcopy
    rw [hcopySize] at hneeds
    rw [toEnd]
    omega
  · intro hfit
    have hend : (toEnd src : ℤ) = src.size - src.rfx := by
      rw [toEnd]
      omega
    have hpieces : pieces src.buf src.rfx.toNat (toEnd src) (movedSize src dst len) = _ :=
      pieces_of_le hfit
    refine ⟨_, ?_, rfl⟩
    have hbytes : ((src.buf.drop src.rfx.toNat).take (movedSize src dst len)).length =
        movedSize src dst len := by
      rw [List.length_take, List.length_drop]
      omega
    rw [hpieces]
    by_cases hstraight : (movedSize src dst len : ℤ) ≤ contiguousSize dst
    · have hrun : copyStraight src dst (movedSize src dst len) false = some _ :=
        copyStraight_forward (r := src.rfx.toNat) (w := dst.wfx.toNat) hdst hlt (by omega)
          (by omega) (by omega) (by omega)
      rw [rbufCopy_straight hsrc hdst hlen hstraight, movedInto_straight (by omega), hbytes, hrun,
        Option.map_some]
    · have hshort : contiguousSize dst < movedSize src dst len := Int.not_le.mp hstraight
      have hc : ((contiguousSize dst).toNat : ℤ) = contiguousSize dst := Int.toNat_of_nonneg hc₀
      have hsplit : copySplit src dst (movedSize src dst len) (contiguousSize dst).toNat false =
          some _ :=
        copySplit_forward (r := src.rfx.toNat) (w := dst.wfx.toNat) hsrc hlt (by omega)
          (by omega) (by omega) (by omega) (by omega) (by omega)
      rw [hc] at hsplit
      rw [rbufCopy_split hsrc hdst hlen hshort, movedInto_split (by omega), hbytes, hsplit,
        Option.map_some]

/-- A source whose bytes may go round, and room in one piece. -/
theorem copiesAsMove_iff_straight (hlt : ¬ src.rfx < src.wfx)
    (hstraight : (movedSize src dst len : ℤ) ≤ contiguousSize dst) :
    CopiesAsMove src dst len ↔ toEnd src ≤ movedSize src dst len ∧
      dst.wfx + toEnd src + movedSize src dst len ≤ INT_MAX := by
  obtain ⟨-, -, hstored, hroom⟩ := copySize_bounds hsrc hdst (Int.natCast_nonneg len)
  rw [copySize_eq hsrc hdst len] at hstored hroom
  obtain ⟨hc₀, hcw⟩ := contiguousSize_bounds hdst hw
  have hslen := hsrc.length_buf
  have hdlen := hdst.length_buf
  have hr₀ := hsrc.rfx_nonneg
  have hw₀ := hdst.wfx_nonneg
  have hused := hsrc.used_le
  have hINT : INT_MAX = 2 ^ 31 - 1 := rfl
  have hend : src.size - src.rfx = toEnd src := by
    rw [toEnd]
    omega
  rw [copiesAsMove_iff_contents hsrc hr hdst hw hlen, rbufCopy_straight hsrc hdst hlen hstraight]
  constructor
  · rintro ⟨dst₂, hcopy, -⟩
    obtain ⟨⟨s, d⟩, hrun, -⟩ := Option.map_eq_some_iff.mp hcopy
    have hneeds := copyStraight_around_needs hlt hrun
    rw [hend] at hneeds
    omega
  · rintro ⟨hfill, hover⟩
    have hlength : (pieces src.buf src.rfx.toNat (toEnd src) (movedSize src dst len)).length =
        movedSize src dst len := length_pieces (by omega) (by omega)
    have hrun : copyStraight src dst (movedSize src dst len) false = some _ :=
      copyStraight_around (r := src.rfx.toNat) (w := dst.wfx.toNat) hlt (by omega) (by omega)
        hend (by omega) hfill (by omega) (by omega) (by omega)
    rw [hrun, Option.map_some]
    refine ⟨_, rfl, ?_⟩
    rw [movedInto_straight (by omega), hlength]
    rfl

/-- A source whose bytes may go round, and room in two pieces. -/
theorem copiesAsMove_iff_split (hlt : ¬ src.rfx < src.wfx)
    (hshort : contiguousSize dst < movedSize src dst len) :
    CopiesAsMove src dst len ↔
      dst.rfx + min (toEnd src) (movedSize src dst len) ≤ src.size ∧
        SameFront src dst (movedSize src dst len) ∧
        (toEnd src = contiguousSize dst → SameRest src dst (movedSize src dst len)) := by
  obtain ⟨-, -, hstored, hroom⟩ := copySize_bounds hsrc hdst (Int.natCast_nonneg len)
  rw [copySize_eq hsrc hdst len] at hstored hroom
  obtain ⟨hc₀, hcw⟩ := contiguousSize_bounds hdst hw
  have hslen := hsrc.length_buf
  have hdlen := hdst.length_buf
  have hr₀ := hsrc.rfx_nonneg
  have hd₀ := hdst.rfx_nonneg
  have hw₀ := hdst.wfx_nonneg
  have hu₀ := hdst.used_nonneg
  have hused := hsrc.used_le
  have hmax := hsrc.size_le
  have hmax' := hdst.size_le
  have hINT : INT_MAX = 2 ^ 31 - 1 := rfl
  have hend : src.size - src.rfx = toEnd src := by
    rw [toEnd]
    omega
  have hsoff : src.rfx.toNat + min (toEnd src) (movedSize src dst len) ≤ src.buf.length := by
    omega
  have hlength := length_pieces hsoff (by omega)
  have hmoved : contents (movedInto dst
      (pieces src.buf src.rfx.toNat (toEnd src) (movedSize src dst len))) =
      window (splitInto dst (pieces src.buf src.rfx.toNat (toEnd src) (movedSize src dst len)))
        dst.rfx.toNat (movedSize src dst len) := by
    rw [movedInto_split (by omega), contents, splitInto]
    dsimp only
    rw [hlength, Int.toNat_natCast]
  have hcopy : rbufCopy src dst len = (copyRound src dst (contiguousSize dst)
      (movedSize src dst len - contiguousSize dst)).map fun buf =>
        (src, { dst with
          buf := buf
          wfx := movedSize src dst len - contiguousSize dst
          used := (movedSize src dst len : ℤ) }, (movedSize src dst len : ℤ)) := by
    rw [rbufCopy_split hsrc hdst hlen hshort, copySplit, if_neg Bool.false_ne_true, if_neg hlt]
    cases copyRound src dst (contiguousSize dst) (movedSize src dst len - contiguousSize dst) with
    | none => rfl
    | some buf => rfl
  have hc : contiguousSize dst = ((contiguousSize dst).toNat : ℤ) := (Int.toNat_of_nonneg hc₀).symm
  have hrest : (movedSize src dst len : ℤ) - contiguousSize dst =
      ((movedSize src dst len - (contiguousSize dst).toNat : ℕ) : ℤ) := by omega
  have hround : ∀ buf, copyRound src dst (contiguousSize dst)
      (movedSize src dst len - contiguousSize dst) = some buf →
      ((∃ dst₂, rbufCopy src dst len = some (src, dst₂, (movedSize src dst len : ℤ)) ∧
        contents dst₂ = contents (movedInto dst
          (pieces src.buf src.rfx.toNat (toEnd src) (movedSize src dst len)))) ↔
      window buf dst.rfx.toNat (movedSize src dst len) =
        window (splitInto dst (pieces src.buf src.rfx.toNat (toEnd src) (movedSize src dst len)))
          dst.rfx.toNat (movedSize src dst len)) := by
    intro buf hbuf
    rw [hcopy, hbuf, Option.map_some, hmoved]
    constructor
    · rintro ⟨dst₂, heq, hsame⟩
      cases heq
      exact hsame
    · exact fun hsame => ⟨_, rfl, hsame⟩
  rw [copiesAsMove_iff_contents hsrc hr hdst hw hlen]
  by_cases hoff : dst.rfx + min (toEnd src) (movedSize src dst len) ≤ src.size
  · have hdoff : dst.rfx.toNat + min (toEnd src) (movedSize src dst len) ≤ src.buf.length := by
      omega
    by_cases heq : (toEnd src : ℤ) = contiguousSize dst
    · have hbuf : copyRound src dst ((contiguousSize dst).toNat : ℤ)
          (movedSize src dst len - contiguousSize dst) = some _ :=
        copyRound_forgets (r := dst.rfx.toNat) (w := dst.wfx.toNat) (by omega) (by omega)
          (hend.trans (heq.trans hc)) (by omega) (by omega)
      rw [← hc] at hbuf
      rw [hround _ hbuf, window_overwrite_iff hdst hw hshort (by omega) (by omega) hsoff hdoff heq]
      exact ⟨fun h => ⟨hoff, h.1, fun _ => h.2⟩, fun h => ⟨h.2.1, h.2.2 heq⟩⟩
    · have hbuf : copyRound src dst ((contiguousSize dst).toNat : ℤ)
          ((movedSize src dst len - (contiguousSize dst).toNat : ℕ) : ℤ) = some _ :=
        copyRound_eq (r := dst.rfx.toNat) (w := dst.wfx.toNat) (by omega) (by omega) hend
          (by omega) (by omega) (by omega) (by omega) (by omega) (by omega) hdoff (by omega)
      rw [← hc, ← hrest] at hbuf
      rw [hround _ hbuf, ← splitInto,
        window_splitInto_iff hdst hw hshort (by omega) (by omega) hsoff hdoff]
      exact ⟨fun h => ⟨hoff, h, fun h' => absurd h' heq⟩, fun h => h.2.1⟩
  · refine iff_of_false ?_ fun h => hoff h.1
    rintro ⟨dst₂, hrun, -⟩
    rw [hcopy] at hrun
    obtain ⟨buf, hbuf, -⟩ := Option.map_eq_some_iff.mp hrun
    rw [hrest, hc, Int.toNat_natCast] at hbuf
    have hneeds := copyRound_needs (r := dst.rfx.toNat) (by omega) hend (by omega) hbuf
    omega

end Cases

/-- `rbuf_copy` does what `rbuf_move` does exactly if its slips do not show. -/
theorem copiesAsMove_iff (hsrc : Reachable src) (hdst : Reachable dst) (len : ℕ) :
    CopiesAsMove src dst len ↔ CopyFits src dst len := by
  have hranges := hsrc.ranges
  have hranges' := hdst.ranges
  by_cases hlen : len = 0
  · rw [CopyFits, hlen]
    exact iff_of_true ⟨src, dst, dst, 0, rfl, rfl, rfl⟩ (Or.inl rfl)
  by_cases hin : dst.wfx ≤ dst.size ∧ src.rfx ≤ src.size
  · obtain ⟨hw, hr⟩ := hin
    have hfits : CopyFits src dst len ↔ if src.rfx < src.wfx then
        movedSize src dst len ≤ toEnd src
      else if (movedSize src dst len : ℤ) ≤ contiguousSize dst then
        toEnd src ≤ movedSize src dst len ∧
          dst.wfx + toEnd src + movedSize src dst len ≤ INT_MAX
      else
        dst.rfx + min (toEnd src) (movedSize src dst len) ≤ src.size ∧
          SameFront src dst (movedSize src dst len) ∧
          (toEnd src = contiguousSize dst → SameRest src dst (movedSize src dst len)) :=
      ⟨fun h => (h.resolve_left hlen).2.2, fun h => Or.inr ⟨hw, hr, h⟩⟩
    rw [hfits]
    by_cases hlt : src.rfx < src.wfx
    · rw [if_pos hlt]
      exact copiesAsMove_iff_forward hranges hr hranges' hw hlen hlt
    rw [if_neg hlt]
    by_cases hstraight : (movedSize src dst len : ℤ) ≤ contiguousSize dst
    · rw [if_pos hstraight]
      exact copiesAsMove_iff_straight hranges hr hranges' hw hlen hlt hstraight
    · rw [if_neg hstraight]
      exact copiesAsMove_iff_split hranges hr hranges' hw hlen hlt (Int.not_le.mp hstraight)
  · refine iff_of_false ?_ ?_
    · rintro ⟨moved, dst₁, dst₂, k, hmove, -, -⟩
      exact hin (rbufMove_needs hranges hranges' (by omega) hmove).2
    · rintro (hzero | ⟨hw, hr, -⟩)
      · exact hlen hzero
      · exact hin ⟨hw, hr⟩

/-- A full buffer whose bytes go round. -/
def wentRound : RBuf := ⟨[101, 102, 99, 100], 4, 4, 2, 2, .blocking⟩

theorem wentRound_reachable : Reachable wentRound :=
  .step (.step (.step (.create 4 (by decide) (by decide) fun _ => 0)
    (by decide : stepOp (rbufCreate 4 fun _ => 0) (.write [97, 98, 99, 100]) =
      some (⟨[97, 98, 99, 100], 4, 4, 0, 4, .blocking⟩, 4, [])))
    (by decide : stepOp ⟨[97, 98, 99, 100], 4, 4, 0, 4, .blocking⟩ (.read 2) =
      some (⟨[97, 98, 99, 100], 4, 2, 2, 4, .blocking⟩, 2, [97, 98])))
    (by decide : stepOp ⟨[97, 98, 99, 100], 4, 2, 2, 4, .blocking⟩ (.write [101, 102]) =
      some (wentRound, 2, []))

/-- Copied into a new buffer, its last bytes come first as well. -/
theorem copy_reads_elsewhere :
    ¬ ∀ src dst, Reachable src → Reachable dst → ∀ len : ℕ, CopiesAsMove src dst len := by
  intro hall
  obtain ⟨moved, dst₁, dst₂, k, hmove, hcopy, hsame⟩ :=
    hall wentRound (rbufCreate 4 fun _ => 0) wentRound_reachable
      (.create 4 (by decide) (by decide) fun _ => 0) 4
  have hmoved : (rbufMove wentRound (rbufCreate 4 fun _ => 0) (4 : ℕ)).map
      (fun r => contents r.2.1) = some [99, 100, 101, 102] := by
    decide
  have hcopied : (rbufCopy wentRound (rbufCreate 4 fun _ => 0) (4 : ℕ)).map
      (fun r => contents r.2.1) = some [101, 102, 101, 102] := by
    decide
  rw [hmove, Option.map_some] at hmoved
  rw [hcopy, Option.map_some, hsame, hmoved] at hcopied
  exact absurd hcopied (by decide)

/-- The equivalence for a source whose bytes are in one piece. -/
theorem copiesAsMove_iff_fresh :
    CopiesAsMove halfFull (rbufCreate 4 fun _ => 0) 2 ↔
      CopyFits halfFull (rbufCreate 4 fun _ => 0) 2 :=
  copiesAsMove_iff halfFull_reachable (.create 4 (by decide) (by decide) fun _ => 0) 2

end RBuf
end LibHL
