import Mathlib.Logic.Function.Basic
import LibHL.FBuf.Operations
import LibHL.Support.Run

/-!
# Flat buffers are byte strings

A run works on any number of flat buffers, which it creates and names by numbers.
The contents of the buffers evolve as byte strings, a call that fails leaves its
string as it is, and a storage is terminated behind the content in every state.
-/

namespace LibHL
namespace FBuf

open Storage

/-- The buffers of a run. -/
abbrev Pool := ℕ → Option FBuf

/-- The operations of a run. -/
inductive FbufOp where
  | create (i maxlen : ℕ)
  | addBinary (i : ℕ) (bytes : List UInt8)
  | add (i : ℕ) (str : List UInt8)
  | set (i : ℕ) (str : List UInt8)
  | printf (i : ℕ) (str : List UInt8)
  | concat (dst src : ℕ)
  | copy (src dst : ℕ)
  | remove (i len : ℕ)
  | trim (i : ℕ)
  | rtrim (i : ℕ)
  | clear (i : ℕ)
  | setUsed (i newused : ℕ)
  | shrink (i : ℕ)
  | duplicate (src dst : ℕ)
  | swap (i j : ℕ)
deriving DecidableEq, Repr

/-- Perform a call on one buffer. -/
def onBuf (pool : Pool) (i : ℕ) (call : FBuf → Option (FBuf × ℤ)) : Option (Pool × ℤ) := do
  let fb ← pool i
  let r ← call fb
  some (Function.update pool i (some r.1), r.2)

/-- One operation with its return value; the length that `fbuf_shrink` returns is
not recorded.  Allocations succeed. -/
def stepOp (pool : Pool) : FbufOp → Option (Pool × ℤ)
  | .create i maxlen => some (Function.update pool i (some (fbufCreate maxlen)), 0)
  | .addBinary i bytes =>
      onBuf pool i fun fb => fbufAddBinary (fun _ => true) fb (bytes.map some)
  | .add i str => onBuf pool i fun fb => fbufAdd (fun _ => true) fb str
  | .set i str => onBuf pool i fun fb => fbufSet (fun _ => true) fb str
  | .printf i str => onBuf pool i fun fb => fbufPrintf (fun _ => true) fb str
  | .concat dst src => do
      let fbufsrc ← pool src
      onBuf pool dst fun fb => fbufConcat (fun _ => true) fb fbufsrc
  | .copy src dst => do
      let fbufsrc ← pool src
      onBuf pool dst fun fb => fbufCopy (fun _ => true) fbufsrc fb
  | .remove i len => onBuf pool i fun fb => fbufRemove fb len
  | .trim i => onBuf pool i fbufTrim
  | .rtrim i => onBuf pool i fbufRtrim
  | .clear i => onBuf pool i fun fb => (fbufClear fb).map fun fb => (fb, 0)
  | .setUsed i newused => onBuf pool i fun fb => fbufSetUsed fb newused
  | .shrink i => onBuf pool i fun fb => (fbufShrink (fun _ => true) fb).map fun r => (r.1, 0)
  | .duplicate src dst => do
      let fb ← pool src
      let fb' ← fbufDuplicate (fun _ => true) fb
      some (Function.update pool dst (some fb'), 0)
  | .swap i j => do
      let fb₁ ← pool i
      let fb₂ ← pool j
      some (Function.update (Function.update pool i (some fb₂)) j (some fb₁), 0)

/-- The calls a run may make: buffers exist, a source is another buffer, limits are
below `UINT_MAX`, strings stay below `2 ^ 31` bytes, and bytes are only removed from
a buffer with storage. -/
def admitted (pool : Pool) : FbufOp → Bool
  | .create _ maxlen => decide (maxlen + 1 < UINT_RANGE)
  | .addBinary i bytes => (pool i).any fun fb => decide (fb.used + bytes.length < 2 ^ 31)
  | .add i str => (pool i).any fun fb => decide (fb.used + (cstring str).length < 2 ^ 31)
  | .set i str => (pool i).any fun _ => decide ((cstring str).length < 2 ^ 31)
  | .printf i str => (pool i).any fun fb => decide (fb.used + str.length < 2 ^ 31)
  | .concat dst src => decide (dst ≠ src) && ((pool dst).any fun fb =>
      (pool src).any fun fb' => decide (fb.used + fb'.used < 2 ^ 31))
  | .copy src dst => decide (src ≠ dst) && (pool src).isSome && (pool dst).isSome
  | .remove i _ => (pool i).any fun fb => fb.data.isSome
  | .trim i => (pool i).any fun fb => fb.data.isSome
  | .rtrim i => (pool i).any fun fb => fb.data.isSome
  | .clear i => (pool i).isSome
  | .setUsed i _ => (pool i).isSome
  | .shrink i => (pool i).isSome
  | .duplicate src _ => (pool src).isSome
  | .swap i j => (pool i).isSome && (pool j).isSome

/-! ## Reference -/

/-- Byte strings and their limits. -/
abbrev Strings := ℕ → Option (ℕ × List UInt8)

/-- Replace one string by the result of a call. -/
def onString (strings : Strings) (i : ℕ) (call : ℕ → List UInt8 → List UInt8 × ℤ) :
    Strings × ℤ :=
  match strings i with
  | none => (strings, 0)
  | some (maxlen, s) =>
      (Function.update strings i (some (maxlen, (call maxlen s).1)), (call maxlen s).2)

/-- The string with a given name. -/
def contentOf (strings : Strings) (i : ℕ) : List UInt8 := ((strings i).map Prod.snd).getD []

/-- The operations on byte strings. -/
def stringStep (strings : Strings) : FbufOp → Strings × ℤ
  | .create i maxlen => (Function.update strings i (some (maxlen, [])), 0)
  | .addBinary i bytes => onString strings i fun maxlen s =>
      if bytes = [] then (s, -1) else appendWithin maxlen s bytes
  | .add i str => onString strings i fun maxlen s => addWithin maxlen s (cstring str)
  | .set i str => onString strings i fun maxlen s => replaceWithin maxlen s (cstring str)
  | .printf i str => onString strings i fun maxlen s => printWithin maxlen s str
  | .concat dst src => onString strings dst fun maxlen s =>
      addWithin maxlen s (contentOf strings src)
  | .copy src dst => onString strings dst fun maxlen s =>
      replaceWithin maxlen s (contentOf strings src)
  | .remove i len => onString strings i fun _ s => (s.drop len, (s.drop len).length)
  | .trim i => onString strings i fun _ s =>
      (s.dropWhile isspace, (s.takeWhile isspace).length)
  | .rtrim i => onString strings i fun _ s =>
      (s.rdropWhile isspace, ((s.length - (s.rdropWhile isspace).length : ℕ) : ℤ))
  | .clear i => onString strings i fun _ _ => ([], 0)
  | .setUsed i newused => onString strings i fun _ s => (s.take newused, (s.take newused).length)
  | .shrink i => onString strings i fun _ s => (s, 0)
  | .duplicate src dst => (Function.update strings dst (strings src), 0)
  | .swap i j => (Function.update (Function.update strings i (strings j)) j (strings i), 0)

/-! ## Simulation -/

/-- A buffer and the string it holds, under one name. -/
inductive HoldsAt : Option FBuf → Option (ℕ × List UInt8) → Prop where
  | missing : HoldsAt none none
  | held {fb : FBuf} {maxlen : ℕ} {s : List UInt8} (h : Holds fb maxlen s) :
      HoldsAt (some fb) (some (maxlen, s))

variable {pool : Pool} {strings : Strings} {i j : ℕ} {fb : FBuf}

theorem HoldsAt.exists_of_some {o : Option (ℕ × List UInt8)} (h : HoldsAt (some fb) o) :
    ∃ maxlen s, o = some (maxlen, s) ∧ Holds fb maxlen s := by
  cases h with
  | held h => exact ⟨_, _, rfl, h⟩

theorem HoldsAt.isSome_eq {o : Option FBuf} {r : Option (ℕ × List UInt8)} (h : HoldsAt o r) :
    o.isSome = r.isSome := by
  cases h with
  | missing => rfl
  | held h => rfl

theorem holdsAt_update {o : Option FBuf} {r : Option (ℕ × List UInt8)}
    (h : ∀ i, HoldsAt (pool i) (strings i)) (ho : HoldsAt o r) :
    ∀ k, HoldsAt (Function.update pool i o k) (Function.update strings i r k) := by
  intro k
  by_cases hk : k = i
  · subst hk
    rw [Function.update_self, Function.update_self]
    exact ho
  · rw [Function.update_of_ne hk, Function.update_of_ne hk]
    exact h k

theorem onBuf_refines {call : FBuf → Option (FBuf × ℤ)}
    {ref : ℕ → List UInt8 → List UInt8 × ℤ} (h : ∀ i, HoldsAt (pool i) (strings i))
    (hi : pool i = some fb)
    (hcall : ∀ maxlen s, strings i = some (maxlen, s) → Holds fb maxlen s →
      ∃ fb', call fb = some (fb', (ref maxlen s).2) ∧ Holds fb' maxlen (ref maxlen s).1) :
    ∃ pool', onBuf pool i call = some (pool', (onString strings i ref).2) ∧
      ∀ k, HoldsAt (pool' k) ((onString strings i ref).1 k) := by
  have hholds := h i
  rw [hi] at hholds
  obtain ⟨maxlen, s, hs, hfb⟩ := hholds.exists_of_some
  obtain ⟨fb', hrun, h'⟩ := hcall maxlen s hs hfb
  refine ⟨Function.update pool i (some fb'), ?_, ?_⟩
  · rw [onBuf, hi, onString, hs]
    simp only [Option.bind_eq_bind, Option.bind_some, hrun]
  · rw [onString, hs]
    exact holdsAt_update h (.held h')

theorem holds_create {maxlen : ℕ} (hmax : maxlen + 1 < UINT_RANGE) :
    Holds (fbufCreate maxlen) maxlen [] where
  sized := ⟨rfl, rfl, rfl, rfl, hmax, fun _ => Nat.zero_le _, Nat.two_pow_pos 32⟩
  short := Nat.two_pow_pos 31
  place := Or.inl ⟨⟨rfl, rfl, rfl, rfl⟩, rfl⟩

/-- One admitted operation. -/
theorem stepOp_refines (h : ∀ i, HoldsAt (pool i) (strings i)) (op : FbufOp)
    (hok : admitted pool op = true) :
    ∃ pool', stepOp pool op = some (pool', (stringStep strings op).2) ∧
      ∀ i, HoldsAt (pool' i) ((stringStep strings op).1 i) := by
  cases op with
  | create i maxlen =>
      exact ⟨_, rfl, holdsAt_update h (.held (holds_create (of_decide_eq_true hok)))⟩
  | addBinary i bytes =>
      obtain ⟨fb, hi, hok⟩ := (Option.any_eq_true _ _).mp hok
      have hshort := of_decide_eq_true hok
      refine onBuf_refines h hi fun maxlen s _ hfb => ?_
      rw [hfb.used] at hshort
      by_cases hnil : bytes = []
      · rw [if_pos hnil, hnil]
        exact ⟨fb, rfl, hfb⟩
      · rw [if_neg hnil]
        exact fbufAddBinary_spec hfb hnil hshort
  | add i str =>
      obtain ⟨fb, hi, hok⟩ := (Option.any_eq_true _ _).mp hok
      have hshort := of_decide_eq_true hok
      refine onBuf_refines h hi fun maxlen s _ hfb => ?_
      rw [hfb.used] at hshort
      exact fbufAdd_spec hfb str hshort
  | set i str =>
      obtain ⟨fb, hi, hok⟩ := (Option.any_eq_true _ _).mp hok
      refine onBuf_refines h hi fun maxlen s _ hfb => ?_
      exact fbufSet_spec hfb str (of_decide_eq_true hok)
  | printf i str =>
      obtain ⟨fb, hi, hok⟩ := (Option.any_eq_true _ _).mp hok
      have hshort := of_decide_eq_true hok
      refine onBuf_refines h hi fun maxlen s _ hfb => ?_
      rw [hfb.used] at hshort
      exact fbufPrintf_spec hfb str hshort
  | concat dst src =>
      rw [admitted, Bool.and_eq_true] at hok
      obtain ⟨fb, hi, hok⟩ := (Option.any_eq_true _ _).mp hok.2
      obtain ⟨fb', hj, hok⟩ := (Option.any_eq_true _ _).mp hok
      have hshort := of_decide_eq_true hok
      obtain ⟨maxlen', t, ht, hsrc⟩ := (hj ▸ h src).exists_of_some
      rw [stepOp, hj]
      refine onBuf_refines h hi fun maxlen s _ hfb => ?_
      rw [hfb.used, hsrc.used] at hshort
      have hcontent : contentOf strings src = t := by
        rw [contentOf, ht]
        rfl
      rw [hcontent]
      exact fbufConcat_spec hfb hsrc hshort
  | copy src dst =>
      rw [admitted, Bool.and_eq_true, Bool.and_eq_true] at hok
      obtain ⟨fb', hj⟩ := Option.isSome_iff_exists.mp hok.1.2
      obtain ⟨fb, hi⟩ := Option.isSome_iff_exists.mp hok.2
      obtain ⟨maxlen', t, ht, hsrc⟩ := (hj ▸ h src).exists_of_some
      rw [stepOp, hj]
      refine onBuf_refines h hi fun maxlen s _ hfb => ?_
      have hcontent : contentOf strings src = t := by
        rw [contentOf, ht]
        rfl
      rw [hcontent]
      exact fbufCopy_spec hfb hsrc
  | remove i len =>
      obtain ⟨fb, hi, hdata⟩ := (Option.any_eq_true _ _).mp hok
      exact onBuf_refines h hi fun maxlen s _ hfb => fbufRemove_spec hfb hdata len
  | trim i =>
      obtain ⟨fb, hi, hdata⟩ := (Option.any_eq_true _ _).mp hok
      exact onBuf_refines h hi fun maxlen s _ hfb => fbufTrim_spec hfb hdata
  | rtrim i =>
      obtain ⟨fb, hi, hdata⟩ := (Option.any_eq_true _ _).mp hok
      exact onBuf_refines h hi fun maxlen s _ hfb => fbufRtrim_spec hfb hdata
  | clear i =>
      obtain ⟨fb, hi⟩ := Option.isSome_iff_exists.mp hok
      refine onBuf_refines h hi fun maxlen s _ hfb => ?_
      obtain ⟨fb', hrun, h'⟩ := fbufClear_spec hfb
      exact ⟨fb', by rw [hrun]; rfl, h'⟩
  | setUsed i newused =>
      obtain ⟨fb, hi⟩ := Option.isSome_iff_exists.mp hok
      exact onBuf_refines h hi fun maxlen s _ hfb => fbufSetUsed_spec hfb newused
  | shrink i =>
      obtain ⟨fb, hi⟩ := Option.isSome_iff_exists.mp hok
      refine onBuf_refines h hi fun maxlen s _ hfb => ?_
      obtain ⟨r, hrun, h'⟩ := fbufShrink_spec hfb
      exact ⟨r.1, by rw [hrun]; rfl, h'⟩
  | duplicate src dst =>
      obtain ⟨fb, hi⟩ := Option.isSome_iff_exists.mp hok
      have hsrc := h src
      rw [hi] at hsrc
      obtain ⟨maxlen, s, hs, hfb⟩ := hsrc.exists_of_some
      obtain ⟨fb', hrun, h'⟩ := fbufDuplicate_spec hfb
      refine ⟨Function.update pool dst (some fb'), ?_, ?_⟩
      · rw [stepOp, hi]
        simp only [Option.bind_eq_bind, Option.bind_some, hrun]
        rfl
      · rw [stringStep, hs]
        exact holdsAt_update h (.held h')
  | swap i j =>
      rw [admitted, Bool.and_eq_true] at hok
      obtain ⟨fb₁, hi⟩ := Option.isSome_iff_exists.mp hok.1
      obtain ⟨fb₂, hj⟩ := Option.isSome_iff_exists.mp hok.2
      have h₁ := h i
      have h₂ := h j
      rw [hi] at h₁
      rw [hj] at h₂
      refine ⟨_, ?_, holdsAt_update (holdsAt_update h h₂) h₁⟩
      rw [stepOp, hi, hj]
      rfl

/-! ## Runs -/

/-- What a buffer shows of the string it holds: its bytes, and in a storage a
terminator behind them that lies within the allocation and the limit. -/
structure Shows (fb : FBuf) (maxlen : ℕ) (s : List UInt8) : Prop where
  maxlen_eq : fb.maxlen = maxlen
  bytes : peek fb.data fb.skip fb.used = some (s.map some)
  used : fb.used = s.length
  storage : ∀ cells, fb.data = some cells →
    cells.length = fb.len ∧ fb.skip + fb.used < fb.len ∧
      cells[fb.skip + fb.used]? = some (some 0) ∧ (maxlen ≠ 0 → fb.used ≤ maxlen)

theorem Holds.shows {maxlen : ℕ} {s : List UInt8} (h : Holds fb maxlen s) :
    Shows fb maxlen s := by
  refine ⟨h.sized.maxlen_eq, ?_, h.used, ?_⟩
  · rcases h.place with ⟨hno, rfl⟩ | ⟨pre, post, hp⟩
    · rw [hno.used]
      rfl
    · rw [hp.data, hp.skip]
      exact peek_mid (by rw [hp.used, List.length_map])
  · intro cells hcells
    obtain ⟨pre, post, hp⟩ := h.placed (by rw [hcells]; rfl)
    have hl := hp.len
    rw [List.length_cons] at hl
    obtain rfl := Option.some.inj (hcells.symm.trans hp.data)
    refine ⟨?_, ?_, ?_, fun hne => ?_⟩
    · simp
      omega
    · rw [hp.skip, hp.used]
      omega
    · have hoff : fb.skip + fb.used = (pre ++ s.map some).length := by
        rw [hp.skip, hp.used, List.length_append, List.length_map]
      rw [hoff, List.getElem?_append_right le_rfl, Nat.sub_self]
      rfl
    · have hcap := h.sized.capped hne
      rw [hp.used]
      omega

/-- In every run of admitted operations the calls return what they return on byte
strings, and every buffer shows its string. -/
theorem fbuf_refines_byteString (ops : List FbufOp)
    (hmeet : StepsMeet stepOp (fun pool op => admitted pool op = true) (fun _ => none) ops) :
    ∃ pool, runSteps stepOp (fun _ => none) ops =
        some (pool, (refRun stringStep (fun _ => none) ops).2) ∧
      (∀ i, (pool i).isSome = ((refRun stringStep (fun _ => none) ops).1 i).isSome) ∧
      ∀ i fb maxlen s, pool i = some fb →
        (refRun stringStep (fun _ => none) ops).1 i = some (maxlen, s) → Shows fb maxlen s := by
  have hstep : ∀ (pool : Pool) (strings : Strings) (op : FbufOp),
      (∀ i, HoldsAt (pool i) (strings i)) → admitted pool op = true →
      ∃ pool', stepOp pool op = some (pool', (stringStep strings op).2) ∧
        ∀ i, HoldsAt (pool' i) ((stringStep strings op).1 i) :=
    fun pool strings op h hok => stepOp_refines h op hok
  obtain ⟨pool, hrun, h⟩ := runSteps_refines hstep ops (fun _ => none) (fun _ => none)
    (fun _ => HoldsAt.missing) hmeet
  refine ⟨pool, hrun, fun i => ?_, fun i fb maxlen s hi hs => ?_⟩
  · exact (h i).isSome_eq
  · have hi' := h i
    rw [hi, hs] at hi'
    cases hi' with
    | held h => exact h.shows

/-- A limit that refuses a string, a removed prefix, a growing storage and a second
buffer. -/
def twoBufferRun : List FbufOp :=
  [.create 0 130, .addBinary 0 [32, 65, 66], .trim 0, .printf 0 [67], .add 0 [68, 0, 69],
    .duplicate 0 1, .set 1 [70, 32], .rtrim 1, .concat 0 1, .remove 0 1, .setUsed 0 2,
    .copy 0 1, .swap 0 1, .shrink 0, .clear 1, .shrink 1, .addBinary 1 []]

theorem fbuf_refines_byteString_twoBuffers :
    StepsMeet stepOp (fun pool op => admitted pool op = true) (fun _ => none) twoBufferRun ∧
      ∃ pool, runSteps stepOp (fun _ => none) twoBufferRun =
          some (pool, (refRun stringStep (fun _ => none) twoBufferRun).2) ∧
        ∀ i fb maxlen s, pool i = some fb →
          (refRun stringStep (fun _ => none) twoBufferRun).1 i = some (maxlen, s) →
            Shows fb maxlen s := by
  have hmeet : StepsMeet stepOp (fun pool op => admitted pool op = true) (fun _ => none)
      twoBufferRun := by
    decide +kernel
  obtain ⟨pool, hrun, -, hshows⟩ := fbuf_refines_byteString twoBufferRun hmeet
  exact ⟨hmeet, pool, hrun, hshows⟩

end FBuf
end LibHL
