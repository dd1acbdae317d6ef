import Mathlib.Data.Int.Notation
import LibHL.Support.Storage

/-!
# The flat buffer

The fields of `fbuf_t` are `unsigned int`s, so sums and differences are taken
modulo `2 ^ 32`.  The storage is a block of bytes of which some may never have
been written.  Accesses outside the storage have no result, and neither have
loops that do not come to an end.  The buffer's `id` is left out.

`alloc` tells for every size whether an allocation of that many bytes succeeds.
-/

namespace LibHL

/-- `fbuf_t`. -/
structure FBuf where
  data : Storage UInt8
  len : ℕ
  maxlen : ℕ
  minlen : ℕ
  fastgrowsize : ℕ
  slowgrowsize : ℕ
  used : ℕ
  skip : ℕ

namespace FBuf

open Storage

def FBUF_MINLEN : ℕ := 128
def FBUF_FASTGROWSIZE : ℕ := 2 ^ 14
def FBUF_SLOWGROWSIZE : ℕ := 2 ^ 10
def FBUF_MAXLEN_NONE : ℕ := 0
def FBUF_LINE_EST : ℕ := 128
def FBUF_READ_EST : ℕ := 1024

/-- The number of values of an `unsigned int`. -/
def UINT_RANGE : ℕ := 2 ^ 32

/-- `a + b` for `unsigned int`s. -/
def uadd (a b : ℕ) : ℕ := (a + b) % UINT_RANGE

/-- `a - b` for `unsigned int`s. -/
def usub (a b : ℕ) : ℕ := (a + (UINT_RANGE - b)) % UINT_RANGE

/-- `fbuf_create`. -/
def fbufCreate (maxlen : ℕ) : FBuf where
  data := none
  len := 0
  maxlen := maxlen
  minlen := FBUF_MINLEN
  fastgrowsize := FBUF_FASTGROWSIZE
  slowgrowsize := FBUF_SLOWGROWSIZE
  used := 0
  skip := 0

/-- Move the content to the start of the storage. -/
def compact (fb : FBuf) : Option FBuf :=
  if fb.used ≠ 0 then do
    let bytes ← peek fb.data fb.skip (uadd fb.used 1)
    let data ← poke fb.data 0 bytes
    some { fb with data := data, skip := 0 }
  else do
    let data ← poke fb.data 0 [some 0]
    some { fb with data := data, skip := 0 }

/-- The size to grow quickly up to. -/
def fastSize (fb : FBuf) : ℕ :=
  if fb.fastgrowsize ≠ 0 then fb.fastgrowsize else FBUF_FASTGROWSIZE

/-- The size to grow by after that. -/
def slowSize (fb : FBuf) : ℕ :=
  if fb.slowgrowsize ≠ 0 then fb.slowgrowsize else FBUF_SLOWGROWSIZE

/-- The next length that `fbuf_extend` tries. -/
def nextLen (fb : FBuf) (len : ℕ) : ℕ :=
  if len = 0 then
    if fb.minlen ≠ 0 then fb.minlen else FBUF_MINLEN
  else if len < fastSize fb then
    fastSize fb
  else
    uadd len (slowSize fb)

/-- The loop of `fbuf_extend`.  Since a length has `UINT_RANGE` values, a loop that
takes more steps than that never ends. -/
def growLen (fb : FBuf) (newlen : ℕ) : ℕ → ℕ → Option ℕ
  | 0, _ => none
  | fuel + 1, len =>
      if len < newlen then growLen fb newlen fuel (nextLen fb len) else some len

section Alloc

variable (alloc : ℕ → Bool)

/-- The end of `fbuf_extend`: get a storage of `len` bytes. -/
def reallocate (fb : FBuf) (len : ℕ) : Option (FBuf × ℕ) :=
  if alloc len = false then
    some ({ fb with len := len }, 0)
  else if fb.skip ≠ 0 then do
    let bytes ← peek fb.data fb.skip fb.used
    let data ← poke (resize none len) 0 bytes
    some ({ fb with data := data, len := len, skip := 0 }, len)
  else if fb.data.isNone then do
    let data ← poke (resize none len) 0 [some 0]
    some ({ fb with data := data, len := len }, len)
  else
    some ({ fb with data := resize fb.data len, len := len }, len)

/-- `fbuf_extend`. -/
def fbufExtend (fb : FBuf) (newlen : ℕ) : Option (FBuf × ℕ) :=
  let newlen := uadd newlen 1
  let availableSpace := usub fb.len fb.skip
  if newlen ≤ availableSpace then
    some (fb, fb.len)
  else if fb.skip ≠ 0 ∧ newlen ≤ fb.len then
    (compact fb).map fun fb => (fb, fb.len)
  else if fb.maxlen ≠ FBUF_MAXLEN_NONE ∧ uadd fb.maxlen 1 < newlen then
    some (fb, 0)
  else do
    let len ← growLen fb newlen UINT_RANGE fb.len
    let len := if fb.maxlen ≠ 0 ∧ fb.maxlen < len then uadd fb.maxlen 1 else len
    if len = 0 then
      some ({ fb with len := len }, 0)
    else
      reallocate alloc fb len

/-- The loop of `fbuf_shrink`: the last length it tried that fits the content. -/
def shrinkLen (fb : FBuf) : ℕ → ℕ → Option ℕ
  | 0, _ => none
  | fuel + 1, newlen =>
      if newlen ≤ fb.minlen then
        some newlen
      else
        let len := if newlen ≤ fastSize fb then newlen / 2 else usub newlen (slowSize fb)
        if uadd fb.used 1 ≤ len then shrinkLen fb fuel len else some newlen

/-- The second half of `fbuf_shrink`. -/
def shrinkTo (fb : FBuf) (newlen : ℕ) : FBuf × ℕ :=
  if newlen = fb.len then
    (fb, fb.len)
  else if newlen = 0 then
    ({ fb with data := none, len := 0 }, 0)
  else if alloc newlen then
    ({ fb with data := resize fb.data newlen, len := newlen }, newlen)
  else
    (fb, fb.len)

/-- The compaction that `fbuf_shrink` starts with. -/
def compactSkipped (fb : FBuf) : Option FBuf :=
  if fb.skip ≠ 0 then compact fb else some fb

/-- `fbuf_shrink`. -/
def fbufShrink (fb : FBuf) : Option (FBuf × ℕ) := do
  let fb ← compactSkipped fb
  let newlen ← shrinkLen fb UINT_RANGE (if fb.used = 0 then 0 else fb.len)
  some (shrinkTo alloc fb newlen)

/-- `fbuf_clear`. -/
def fbufClear (fb : FBuf) : Option FBuf :=
  if 0 < fb.len then do
    let data ← poke fb.data 0 [some 0]
    some { fb with data := data, used := 0, skip := 0 }
  else
    some { fb with used := 0, skip := 0 }

/-- Write the terminator behind the content. -/
def terminate (fb : FBuf) : Option FBuf := do
  let data ← poke fb.data (uadd fb.skip fb.used) [some 0]
  some { fb with data := data }

/-- `fbuf_add_binary`; `bytes` are the `len` bytes at `data`. -/
def fbufAddBinary (fb : FBuf) (bytes : List (Option UInt8)) : Option (FBuf × ℤ) :=
  if bytes.length = 0 then
    some (fb, -1)
  else do
    let r ← fbufExtend alloc fb (uadd fb.used bytes.length)
    if r.2 = 0 then
      some (r.1, -1)
    else do
      let data ← poke r.1.data (uadd r.1.skip r.1.used) bytes
      let fb ← terminate { r.1 with data := data, used := uadd r.1.used bytes.length }
      some (fb, bytes.length)

/-- The bytes of a C string before its terminator. -/
def cstring (bytes : List UInt8) : List UInt8 := bytes.takeWhile (· != 0)

/-- `fbuf_add`. -/
def fbufAdd (fb : FBuf) (str : List UInt8) : Option (FBuf × ℤ) :=
  if cstring str = [] then
    some (fb, 0)
  else
    fbufAddBinary alloc fb ((cstring str).map some)

/-- `fbuf_duplicate`. -/
def fbufDuplicate (fbufsrc : FBuf) : Option FBuf :=
  if fbufsrc.used ≠ 0 then do
    let bytes ← peek fbufsrc.data fbufsrc.skip fbufsrc.used
    let r ← fbufAddBinary alloc (fbufCreate fbufsrc.maxlen) bytes
    some r.1
  else
    some (fbufCreate fbufsrc.maxlen)

/-- `fbuf_concat`, for two different buffers. -/
def fbufConcat (fbufdst fbufsrc : FBuf) : Option (FBuf × ℤ) :=
  if fbufsrc.used = 0 then
    some (fbufdst, 0)
  else do
    let datalen := fbufsrc.used
    let r ← fbufExtend alloc fbufdst (uadd fbufdst.used datalen)
    if r.2 = 0 then
      some (r.1, -1)
    else do
      let bytes ← peek fbufsrc.data fbufsrc.skip (uadd datalen 1)
      let data ← poke r.1.data (uadd r.1.skip r.1.used) bytes
      some ({ r.1 with data := data, used := uadd r.1.used datalen }, datalen)

/-- `fbuf_copy`, for two different buffers. -/
def fbufCopy (fbufsrc fbufdst : FBuf) : Option (FBuf × ℤ) := do
  let r ← fbufExtend alloc fbufdst fbufsrc.used
  if r.2 = 0 then
    some (r.1, -1)
  else do
    let fb ← fbufClear r.1
    let bytes ← peek fbufsrc.data fbufsrc.skip fbufsrc.used
    let data ← poke fb.data fb.skip bytes
    let fb ← terminate { fb with data := data, used := fbufsrc.used }
    some (fb, fb.used)

/-- `fbuf_set`. -/
def fbufSet (fb : FBuf) (str : List UInt8) : Option (FBuf × ℤ) := do
  let datalen := (cstring str).length
  let r ← fbufExtend alloc fb datalen
  if r.2 = 0 then
    some (r.1, -1)
  else do
    let data ← poke r.1.data r.1.skip ((cstring str).map some ++ [some 0])
    some ({ r.1 with data := data, used := datalen }, datalen)

/-- `vsnprintf` of a formatted string to the place behind the content; it returns
the length of the string. -/
def vsnprintf (fb : FBuf) (str : List UInt8) : Option FBuf :=
  let size := usub fb.len (uadd fb.skip fb.used)
  if size = 0 then
    some fb
  else do
    let data ← poke fb.data (uadd fb.skip fb.used) ((str.take (size - 1)).map some ++ [some 0])
    some { fb with data := data }

/-- The end of `fbuf_printf`. -/
def countPrinted (fb : FBuf) (n : ℕ) : Option (FBuf × ℤ) := do
  let fb ← terminate { fb with used := uadd fb.used n }
  some (fb, n)

/-- `fbuf_printf`; `str` is the formatted string. -/
def fbufPrintf (fb : FBuf) (str : List UInt8) : Option (FBuf × ℤ) := do
  let r ← fbufExtend alloc fb (uadd fb.used FBUF_LINE_EST)
  if r.2 = 0 then
    some (r.1, -1)
  else do
    let fb ← vsnprintf r.1 str
    let n := str.length
    if usub fb.len (uadd fb.skip fb.used) ≤ n then do
      -- Some characters were discarded.
      let r ← fbufExtend alloc fb (uadd fb.used n)
      if r.2 = 0 then do
        let fb ← terminate r.1
        some (fb, -1)
      else do
        let fb ← vsnprintf r.1 str
        countPrinted fb n
    else
      countPrinted fb n

end Alloc

/-- `fbuf_remove`. -/
def fbufRemove (fb : FBuf) (len : ℕ) : Option (FBuf × ℤ) :=
  if fb.used ≤ len then do
    let data ← poke fb.data 0 [some 0]
    some ({ fb with data := data, used := 0, skip := 0 }, 0)
  else if len ≠ 0 then do
    let fb := { fb with skip := uadd fb.skip len, used := usub fb.used len }
    if fb.len / 2 ≤ fb.skip then do
      let bytes ← peek fb.data fb.skip (uadd fb.used 1)
      let data ← poke fb.data 0 bytes
      some ({ fb with data := data, skip := 0 }, fb.used)
    else
      some (fb, fb.used)
  else
    some (fb, fb.used)

/-- `isspace` in the C locale. -/
def isspace (c : UInt8) : Bool := c == 32 || (9 ≤ c && c ≤ 13)

/-- The loop of `fbuf_trim` over the `k` bytes from `off` on. -/
def leadingSpaces (data : Storage UInt8) : ℕ → ℕ → Option ℕ
  | 0, _ => some 0
  | k + 1, off => do
      let c ← readCell data off
      if isspace c then do
        let i ← leadingSpaces data k (off + 1)
        some (i + 1)
      else
        some 0

/-- `fbuf_trim`. -/
def fbufTrim (fb : FBuf) : Option (FBuf × ℤ) := do
  let i ← leadingSpaces fb.data fb.used fb.skip
  let r ← fbufRemove fb i
  some (r.1, i)

/-- The loop of `fbuf_rtrim`: how many of the first `k` bytes stay. -/
def withoutTrailing (data : Storage UInt8) (skip : ℕ) : ℕ → Option ℕ
  | 0 => some 0
  | k + 1 => do
      let c ← readCell data (skip + k)
      if isspace c then withoutTrailing data skip k else some (k + 1)

/-- `fbuf_rtrim`. -/
def fbufRtrim (fb : FBuf) : Option (FBuf × ℤ) := do
  let used ← withoutTrailing fb.data fb.skip fb.used
  let i := fb.used - used
  let fb ← terminate { fb with used := used }
  some (fb, i)

/-- `fbuf_set_used`. -/
def fbufSetUsed (fb : FBuf) (newused : ℕ) : Option (FBuf × ℤ) :=
  if newused < fb.used then do
    let fb ← terminate { fb with used := newused }
    some (fb, fb.used)
  else
    some (fb, fb.used)

/-! ## Limits and growth sizes -/

/-- `UINT_MAX`. -/
def UINT_MAX : ℕ := UINT_RANGE - 1

/-- `INT_MAX`. -/
def INT_MAX : ℕ := 2 ^ 31 - 1

/-- An `unsigned int` as an `int`. -/
def toInt (n : ℕ) : ℤ := if n ≤ INT_MAX then n else n - UINT_RANGE

/-- An `int` as an `unsigned int`. -/
def toUInt (n : ℤ) : ℕ := (n % UINT_RANGE).toNat

/-- `fbuf_fastgrowsize`. -/
def fbufFastgrowsize (fb : FBuf) (size : ℕ) : FBuf × ℕ :=
  (if size ≠ 0 then { fb with fastgrowsize := size } else fb, fb.fastgrowsize)

/-- `fbuf_slowgrowsize`. -/
def fbufSlowgrowsize (fb : FBuf) (size : ℕ) : FBuf × ℕ :=
  (if size ≠ 0 then { fb with slowgrowsize := size } else fb, fb.slowgrowsize)

section Memory

variable (alloc : ℕ → Bool)

/-- The second half of `fbuf_maxlen`, for a storage that is longer than the limit. -/
def truncateTo (fb : FBuf) (old : ℕ) : Option (FBuf × ℕ) := do
  let r ← fbufShrink alloc fb
  let fb := r.1
  let size := uadd fb.maxlen 1
  if alloc size then do
    let data ← poke (resize fb.data size) fb.maxlen [some 0]
    some ({ fb with
      data := data
      len := size
      used := if fb.maxlen ≤ fb.used then fb.maxlen else fb.used }, old)
  else
    some (fb, 0)

/-- `fbuf_maxlen`. -/
def fbufMaxlen (fb : FBuf) (len : ℕ) : Option (FBuf × ℕ) :=
  let old := fb.maxlen
  let fb := if len < UINT_MAX then { fb with maxlen := len } else fb
  if fb.maxlen < fb.len then truncateTo alloc fb old else some (fb, old)

/-- `fbuf_minlen`. -/
def fbufMinlen (fb : FBuf) (len : ℕ) : FBuf × ℕ :=
  let old := fb.minlen
  if len ≠ 0 then
    let fb := { fb with minlen := len }
    if fb.used < fb.minlen ∧ fb.minlen < fb.len then
      if alloc fb.minlen then
        ({ fb with data := resize fb.data fb.minlen, len := fb.minlen }, old)
      else
        (fb, 0)
    else
      (fb, old)
  else
    (fb, old)

/-! ## Handing storage over -/

/-- The end of `fbuf_attach`: take over a storage and terminate the content in it. -/
def attachData (fb : FBuf) (data : Storage UInt8) (len used : ℤ) : Option (FBuf × ℕ) :=
  if used < 0 then none
  else do
    let data ← poke data used.toNat [some 0]
    some ({ fb with data := data, len := toUInt len, used := toUInt used, skip := 0 }, fb.used)

/-- `fbuf_attach`; `buf` is the block at `buf`. -/
def fbufAttach (fb : FBuf) (buf : Storage UInt8) (len used : ℤ) : Option (FBuf × ℕ) :=
  if used < len then
    attachData fb buf len used
  else if used < 0 ∨ INT_MAX ≤ used then
    none
  else if alloc (used + 1).toNat then
    attachData fb (resize buf (used + 1).toNat) len used
  else
    some ({ fb with data := none, skip := 0 }, 0)

/-- `fbuf_detach`, with `*buf` and `*len`; nothing is handed out if the buffer is empty. -/
def fbufDetach (fb : FBuf) : Option (FBuf × ℕ × Option (Storage UInt8 × ℤ)) :=
  if fb.used = 0 then
    some (fb, 0, none)
  else do
    let fb ← (if fb.skip ≠ 0 then (fbufShrink alloc fb).map Prod.fst else some fb)
    some ({ fb with data := none, len := 0, used := 0, skip := 0 }, fb.used,
      some (fb.data, toInt fb.len))

/-! ## Writing in front and behind -/

/-- `fbuf_prepend_binary`; `bytes` are the `len` bytes at `data`. -/
def fbufPrependBinary (fb : FBuf) (bytes : List (Option UInt8)) : Option (FBuf × ℤ) :=
  let len := bytes.length
  if len = 0 then
    some (fb, 0)
  else if (len : ℤ) ≤ toInt fb.skip then do
    let data ← poke fb.data (fb.skip - len) bytes
    some ({ fb with data := data, skip := usub fb.skip len, used := uadd fb.used len }, len)
  else do
    let r ← fbufExtend alloc fb (uadd fb.used len)
    if r.2 = 0 then
      some (r.1, -1)
    else do
      let fb := r.1
      let moved ← peek fb.data fb.skip (uadd fb.used 1)
      let data ← poke fb.data (fb.skip + len) moved
      let data ← poke data fb.skip bytes
      some ({ fb with data := data, used := uadd fb.used len }, len)

/-- `fbuf_nprintf`; `str` is the formatted string. -/
def fbufNprintf (fb : FBuf) (max : ℤ) (str : List UInt8) : Option (FBuf × ℤ) := do
  let r ← fbufExtend alloc fb (uadd fb.used (toUInt max))
  if r.2 = 0 then
    some (r.1, -1)
  else do
    let fb ← vsnprintf r.1 str
    countPrinted fb str.length

/-! ## Reading lines -/

/-- Whether the last byte of the content is `c`. -/
def endsIn (fb : FBuf) (c : UInt8) : Option Bool :=
  if fb.used = 0 then
    some false
  else do
    let last ← readCell fb.data (usub (uadd fb.skip fb.used) 1)
    some (last == c)

/-- `'\n'`. -/
def NEWLINE : UInt8 := 10

/-- `'\r'`. -/
def RETURN : UInt8 := 13

/-- The loop of `fbuf_read_ln` and `fbuf_fread_ln`, with the bytes that are left to read:
whether it came to a newline. -/
def readUntilNewline (fb : FBuf) : List UInt8 → Option (FBuf × Bool × List UInt8)
  | [] => do
      if ← endsIn fb NEWLINE then
        some (fb, true, [])
      else do
        let r ← fbufExtend alloc fb (uadd fb.used 1)
        some (r.1, false, [])
  | c :: input => do
      if ← endsIn fb NEWLINE then
        some (fb, true, c :: input)
      else do
        let r ← fbufExtend alloc fb (uadd fb.used 1)
        if r.2 = 0 then
          some (r.1, false, c :: input)
        else do
          let data ← poke r.1.data (r.1.skip + r.1.used) [some c]
          readUntilNewline { r.1 with data := data, used := uadd r.1.used 1 } input

/-- Drop the last byte of the content. -/
def dropLast (fb : FBuf) : Option FBuf := terminate { fb with used := usub fb.used 1 }

/-- The common body of `fbuf_read_ln` and `fbuf_fread_ln`; `input` are the bytes up to the end
of the stream. -/
def readLine (fb : FBuf) (input : List UInt8) : Option (FBuf × ℤ × List UInt8) := do
  let initial := fb.used
  let r ← readUntilNewline alloc fb input
  if r.2.1 then do
    let fb ← dropLast r.1
    let fb ← (if ← endsIn fb RETURN then dropLast fb else some fb)
    some (fb, toInt (usub fb.used initial), r.2.2)
  else
    some (r.1, -1, r.2.2)

/-- `fbuf_read_ln`. -/
def fbufReadLn (fb : FBuf) (fd : List UInt8) : Option (FBuf × ℤ × List UInt8) :=
  readLine alloc fb fd

/-- `fbuf_fread_ln`. -/
def fbufFreadLn (fb : FBuf) (file : List UInt8) : Option (FBuf × ℤ × List UInt8) :=
  readLine alloc fb file

/-- The common body of `fbuf_read` and `fbuf_fread`; `got` are the bytes that come from the
stream, of which at most `explen` are taken, or `none` where it cannot be read. -/
def readBytes (fb : FBuf) (explen : ℕ) (got : Option (List UInt8)) : Option (FBuf × ℤ) := do
  let explen := if explen = 0 then FBUF_READ_EST else explen
  let r ← fbufExtend alloc fb (uadd fb.used explen)
  if r.2 = 0 then
    some (r.1, -1)
  else do
    let bytes := (got.getD []).take explen
    let n := if got.isSome then toInt bytes.length else -1
    let data ← poke r.1.data (uadd r.1.skip r.1.used) (bytes.map some)
    let used := if 0 < n then uadd r.1.used bytes.length else r.1.used
    let fb ← terminate { r.1 with data := data, used := used }
    some (fb, n)

/-- `fbuf_add_ln`. -/
def fbufAddLn (fb : FBuf) (str : List UInt8) : Option (FBuf × ℤ) := do
  let r₁ ← fbufAdd alloc fb str
  if r₁.2 = -1 then
    some (r₁.1, -1)
  else do
    let r₂ ← fbufAdd alloc r₁.1 [NEWLINE]
    if r₂.2 = -1 then
      some (r₂.1, -1)
    else
      some (r₂.1, r₁.2 + r₂.2)

/-- `fbuf_read`. -/
def fbufRead (fb : FBuf) (explen : ℕ) (fd : Option (List UInt8)) : Option (FBuf × ℤ) :=
  readBytes alloc fb explen fd

/-- `fbuf_fread`. -/
def fbufFread (fb : FBuf) (explen : ℕ) (file : List UInt8) : Option (FBuf × ℤ) :=
  readBytes alloc fb explen (some file)

end Memory

/-- `fbuf_destroy`. -/
def fbufDestroy (fb : FBuf) : FBuf := { fb with data := none, len := 0, used := 0, skip := 0 }

/-- `fbuf_move`, for two different buffers: the source and the destination. -/
def fbufMove (fbufsrc _fbufdst : FBuf) : FBuf × FBuf := (fbufDestroy fbufsrc, fbufsrc)

end FBuf
end LibHL
