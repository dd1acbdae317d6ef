import Mathlib.Data.Int.Order.Basic
import LibHL.Support.Circular

/-!
# The ring buffer

The fields of `rbuf_t` are C `int`s: sums that leave the range of `int` and
copies that leave a buffer have no result.  The input of `rbuf_write` is the list
of the bytes `in` points to, so its length is the argument `size`.
-/

namespace LibHL

/-- `rbuf_mode_t`. -/
inductive RbufMode where
  | blocking
  | overwrite
deriving DecidableEq, Repr

/-- `rbuf_t`. -/
structure RBuf where
  buf : List UInt8
  size : ℤ
  used : ℤ
  rfx : ℤ
  wfx : ℤ
  mode : RbufMode
deriving DecidableEq, Repr

namespace RBuf

/-- `RBUF_DEFAULT_SIZE`. -/
def RBUF_DEFAULT_SIZE : ℤ := 4096

/-- `INT_MAX`. -/
def INT_MAX : ℤ := 2 ^ 31 - 1

/-- A sum of two `int`s. -/
def intAdd (x y : ℤ) : Option ℤ :=
  if -(2 ^ 31) ≤ x + y ∧ x + y ≤ INT_MAX then some (x + y) else none

/-- The `n` bytes at offset `off`. -/
def load (buf : List UInt8) (off n : ℤ) : Option (List UInt8) :=
  if 0 ≤ off ∧ 0 ≤ n ∧ off + n ≤ buf.length then
    some ((buf.drop off.toNat).take n.toNat)
  else
    none

/-- Copy bytes to offset `off`. -/
def store (buf : List UInt8) (off : ℤ) (bytes : List UInt8) : Option (List UInt8) :=
  if 0 ≤ off ∧ off + bytes.length ≤ buf.length then
    some (Circular.overwrite buf off.toNat bytes)
  else
    none

/-- `rbuf_create`; `mem` are the bytes that `malloc` returns. -/
def rbufCreate (size : ℤ) (mem : ℕ → UInt8) : RBuf :=
  let size := if size = 0 then RBUF_DEFAULT_SIZE else size
  { buf := (List.range size.toNat).map mem
    size := size
    used := 0
    rfx := 0
    wfx := 0
    mode := .blocking }

/-- `rbuf_set_mode`. -/
def rbufSetMode (rb : RBuf) (mode : RbufMode) : RBuf := { rb with mode := mode }

/-- `rbuf_skip`. -/
def rbufSkip (rb : RBuf) (size : ℤ) : Option RBuf :=
  if rb.used ≤ size then
    some { rb with rfx := rb.wfx, used := 0 }
  else if rb.size - rb.rfx < size then
    some { rb with used := rb.used - size, rfx := size - (rb.size - rb.rfx) }
  else do
    let rfx ← intAdd rb.rfx size
    some { rb with used := rb.used - size, rfx := rfx }

/-- `rbuf_read`, with the bytes copied to `out`. -/
def rbufRead (rb : RBuf) (size : ℤ) : Option (RBuf × ℤ × List UInt8) :=
  let readSize := if rb.used < size then rb.used else size
  let toEnd := rb.size - rb.rfx
  if toEnd < readSize then do
    let front ← load rb.buf rb.rfx toEnd
    let startSize := readSize - toEnd
    let back ← load rb.buf 0 startSize
    some ({ rb with rfx := startSize, used := rb.used - readSize }, readSize, front ++ back)
  else do
    let out ← load rb.buf rb.rfx readSize
    let rfx ← intAdd rb.rfx readSize
    some ({ rb with rfx := rfx, used := rb.used - readSize }, readSize, out)

/-- The end of `rbuf_write`: copy `writeSize` bytes, `toEnd` of them before the end
of the buffer. -/
def writeBytes (rb : RBuf) (inp : List UInt8) (toEnd writeSize : ℤ) :
    Option (RBuf × ℤ) :=
  if toEnd < writeSize then do
    let front ← load inp 0 toEnd
    let buf ← store rb.buf rb.wfx front
    let fromStart := writeSize - toEnd
    let back ← load inp toEnd fromStart
    let buf ← store buf 0 back
    let used ← intAdd rb.used writeSize
    some ({ rb with buf := buf, wfx := fromStart, used := used }, writeSize)
  else do
    let bytes ← load inp 0 writeSize
    let buf ← store rb.buf rb.wfx bytes
    let wfx ← intAdd rb.wfx writeSize
    let used ← intAdd rb.used writeSize
    some ({ rb with buf := buf, wfx := wfx, used := used }, writeSize)

/-- `rbuf_write`. -/
def rbufWrite (rb : RBuf) (inp : List UInt8) : Option (RBuf × ℤ) :=
  let size : ℤ := inp.length
  if size = 0 then
    some (rb, 0)
  else
    let availableSize := rb.size - rb.used
    let toEnd := rb.size - rb.wfx
    let writeSize := if availableSize < size then availableSize else size
    if writeSize < size ∧ rb.mode = .overwrite then
      if rb.size < size then do
        -- Only the last bytes of the input fit.
        let bytes ← load inp (size - rb.size) rb.size
        let buf ← store rb.buf 0 bytes
        some ({ rb with buf := buf, rfx := 0, wfx := 0, used := rb.size }, size)
      else do
        -- The read offset makes room for the rest of the input.
        let diff := size - writeSize
        let rfx ← intAdd rb.rfx diff
        let writeSize ← intAdd writeSize diff
        writeBytes
          { rb with
            rfx := if rb.size ≤ rfx then rfx - rb.size else rfx
            used := rb.used - diff }
          inp toEnd writeSize
    else
      writeBytes rb inp toEnd writeSize

/-- `rbuf_clear`. -/
def rbufClear (rb : RBuf) : RBuf := { rb with rfx := 0, wfx := 0, used := 0 }

/-- The operations of a run; sizes are not negative. -/
inductive RbufOp where
  | write (inp : List UInt8)
  | read (size : ℕ)
  | skip (size : ℕ)
  | clear
  | setMode (mode : RbufMode)
deriving DecidableEq, Repr

/-- One operation, with its return value and the bytes it hands out. -/
def stepOp (rb : RBuf) : RbufOp → Option (RBuf × ℤ × List UInt8)
  | .write inp => (rbufWrite rb inp).map fun r => (r.1, r.2, [])
  | .read size => rbufRead rb size
  | .skip size => (rbufSkip rb size).map fun rb => (rb, 0, [])
  | .clear => some (rbufClear rb, 0, [])
  | .setMode mode => some (rbufSetMode rb mode, 0, [])

/-! ## Searching -/

/-- `buf[i]`. -/
def byteAt (buf : List UInt8) (i : ℤ) : Option UInt8 :=
  if 0 ≤ i then buf[i.toNat]? else none

/-- `n` rounds of a loop of `rbuf_find` from index `i` on: the first index with the octet. -/
def scan (buf : List UInt8) (octet : UInt8) : ℕ → ℤ → Option (Option ℤ)
  | 0, _ => some none
  | n + 1, i => do
      let b ← byteAt buf i
      if b = octet then some (some i) else scan buf octet n (i + 1)

/-- `rbuf_find`. -/
def rbufFind (rb : RBuf) (octet : UInt8) : Option ℤ :=
  if rb.used = 0 then
    some (-1)
  else if rb.rfx < rb.wfx then do
    -- The loop condition is `i <= wfx`.
    match ← scan rb.buf octet (rb.wfx + 1 - rb.rfx).toNat rb.rfx with
    | some i => some (i - rb.rfx)
    | none => some (-1)
  else do
    match ← scan rb.buf octet (rb.size - rb.rfx).toNat rb.rfx with
    | some i => some (i - rb.rfx)
    | none =>
        match ← scan rb.buf octet (rb.wfx + 1).toNat 0 with
        | some i => some (rb.size - rb.rfx + i)
        | none => some (-1)

/-- A loop of `rbuf_read_until` with its condition on the index and the bytes left: whether
the octet was found, the bytes left, and the output. -/
def copyUntil (buf : List UInt8) (octet : UInt8) (go : ℤ → ℤ → Bool) :
    ℕ → ℤ → ℤ → List UInt8 → Option (Bool × ℤ × List UInt8)
  | 0, _, _, _ => none
  | fuel + 1, i, toRead, out =>
      if go i toRead then do
        let b ← byteAt buf i
        if b = octet then
          some (true, toRead - 1, out ++ [b])
        else
          copyUntil buf octet go fuel (i + 1) (toRead - 1) (out ++ [b])
      else
        some (false, toRead, out)

/-- `rbuf_read_until`, with the bytes copied to `out`. -/
def rbufReadUntil (rb : RBuf) (octet : UInt8) (maxsize : ℤ) :
    Option (RBuf × ℤ × List UInt8) := do
  let size := rb.used
  let fuel := rb.buf.length + 1
  let first ← copyUntil rb.buf octet (fun i toRead => i < rb.size ∧ size - toRead < maxsize)
    fuel rb.rfx size []
  let last ← (if first.1 then some first else
    copyUntil rb.buf octet (fun _ toRead => 0 < toRead ∧ size - toRead < maxsize)
      fuel 0 first.2.1 first.2.2)
  let rb ← rbufSkip rb (size - last.2.1)
  some (rb, size - last.2.1, last.2.2)

/-! ## Moving and copying -/

/-- The part of `rbuf_copy_internal` for a free piece of the destination that has room for
all bytes. -/
def copyStraight (src dst : RBuf) (toCopy : ℤ) (move : Bool) : Option (RBuf × RBuf) :=
  if move then do
    let (src, _, bytes) ← rbufRead src toCopy
    let buf ← store dst.buf dst.wfx bytes
    let wfx ← intAdd dst.wfx toCopy
    some (src, { dst with buf := buf, wfx := wfx, used := toCopy })
  else if src.rfx < src.wfx then do
    let bytes ← load src.buf src.rfx toCopy
    let buf ← store dst.buf dst.wfx bytes
    let wfx ← intAdd dst.wfx toCopy
    some (src, { dst with buf := buf, wfx := wfx, used := toCopy })
  else do
    let toEnd := src.size - src.rfx
    let front ← load src.buf src.rfx toEnd
    let buf ← store dst.buf dst.wfx front
    let wfx ← intAdd dst.wfx toEnd
    let back ← load src.buf 0 (toCopy - toEnd)
    let buf ← store buf wfx back
    let wfx ← intAdd wfx toCopy
    some (src, { dst with buf := buf, wfx := wfx, used := toCopy })

/-- The copies of `rbuf_copy_internal` from a source that may go round, into two pieces of
the destination.  The source is read at the offset `dst->rfx`. -/
def copyRound (src dst : RBuf) (contiguous remainder : ℤ) : Option (List UInt8) := do
  let toEnd := src.size - src.rfx
  if contiguous < toEnd then
    let front ← load src.buf dst.rfx contiguous
    let buf ← store dst.buf dst.wfx front
    let diff := toEnd - contiguous
    let next ← intAdd dst.rfx contiguous
    if remainder < diff then
      let back ← load src.buf next remainder
      store buf 0 back
    else
      let middle ← load src.buf next diff
      let buf ← store buf 0 middle
      let back ← load src.buf 0 (remainder - diff)
      store buf diff back
  else
    let front ← load src.buf dst.rfx toEnd
    let buf ← store dst.buf dst.wfx front
    let diff := contiguous - toEnd
    if diff = 0 then
      some buf
    else
      let middle ← load src.buf 0 diff
      let next ← intAdd dst.wfx toEnd
      let buf ← store buf next middle
      let back ← load src.buf diff remainder
      store buf 0 back

/-- The part of `rbuf_copy_internal` for a free piece of the destination that is too short:
the rest goes to the beginning. -/
def copySplit (src dst : RBuf) (toCopy contiguous : ℤ) (move : Bool) : Option (RBuf × RBuf) := do
  let remainder := toCopy - contiguous
  if move then
    let (src, _, front) ← rbufRead src contiguous
    let buf ← store dst.buf dst.wfx front
    let (src, _, back) ← rbufRead src remainder
    let buf ← store buf 0 back
    some (src, { dst with buf := buf, wfx := remainder, used := toCopy })
  else if src.rfx < src.wfx then
    let front ← load src.buf src.rfx contiguous
    let buf ← store dst.buf dst.wfx front
    let next ← intAdd src.rfx contiguous
    let back ← load src.buf next remainder
    let buf ← store buf 0 back
    some (src, { dst with buf := buf, wfx := remainder, used := toCopy })
  else
    let buf ← copyRound src dst contiguous remainder
    some (src, { dst with buf := buf, wfx := remainder, used := toCopy })

/-- The number of bytes that `rbuf_copy_internal` copies: what is asked for, what the source
has and what the destination has room for. -/
def copySize (src dst : RBuf) (len : ℤ) : ℤ :=
  let available := dst.size - dst.used
  let toCopy := if len < available then len else available
  if src.used < toCopy then src.used else toCopy

/-- The free bytes of the destination behind its write offset, as `rbuf_copy_internal`
computes them. -/
def contiguousSize (dst : RBuf) : ℤ :=
  if dst.rfx < dst.wfx then dst.size - dst.wfx else dst.rfx - dst.wfx

/-- `rbuf_copy_internal`, on two different buffers. -/
def rbufCopyInternal (src dst : RBuf) (len : ℤ) (move : Bool) : Option (RBuf × RBuf × ℤ) :=
  if len = 0 then
    some (src, dst, 0)
  else
    let toCopy := copySize src dst len
    let contiguous := contiguousSize dst
    (if toCopy ≤ contiguous then copyStraight src dst toCopy move
      else copySplit src dst toCopy contiguous move).map fun r => (r.1, r.2, toCopy)

/-- `rbuf_move`. -/
def rbufMove (src dst : RBuf) (len : ℤ) : Option (RBuf × RBuf × ℤ) :=
  rbufCopyInternal src dst len true

/-- `rbuf_copy`. -/
def rbufCopy (src dst : RBuf) (len : ℤ) : Option (RBuf × RBuf × ℤ) :=
  rbufCopyInternal src dst len false

end RBuf
end LibHL
