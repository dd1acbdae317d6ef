import Mathlib.Data.List.Basic
import Mathlib.Data.Nat.Digits.Defs
import Mathlib.Tactic.Ring

/-!
# Incrementing keys of bytes

Without callbacks of the caller, the heap reads a key as a big-endian number.  Its functions
for incrementing and decrementing leave the loop over the bytes before they store the last
byte that they computed, so no increment but zero comes out right.
-/

namespace LibHL
namespace BinHeap

/-! ## The functions -/

/-- In what incrementing and decrementing differ: how a byte changes, when the changed byte tells
that there is a carry, and the byte in front of a key that became longer. -/
structure KeyChange where
  change : UInt8 → UInt8 → UInt8
  carries : UInt8 → UInt8 → Bool
  top : UInt8
  change_zero : ∀ b, change b 0 = b
  carries_self : ∀ b, carries b b = false

/-- The loop over the bytes.  The position moves only if there is an output buffer `nk`. -/
def changeLoop (S : KeyChange) (key : List UInt8) :
    ℕ → ℕ → UInt8 → Option (List UInt8) → Option (ℕ × UInt8 × Option (List UInt8))
  | 0, _, _, _ => none
  | fuel + 1, off, b, nk => do
      let c ← key[off]?
      if 0 < off ∧ S.carries b c then
        match nk with
        | some nk => do
            let c ← key[off - 1]?
            changeLoop S key fuel (off - 1) (S.change c 1) (some (nk.set off b))
        | none => changeLoop S key fuel off (S.change c 1) none
      else
        some (off, b, nk)

/-- The end of the two functions: the key gets longer if there is a carry out of its first byte.
The result is what is stored through `out`, if it is given, and the size. -/
def extendKey (S : KeyChange) (size : ℕ) :
    ℕ × UInt8 × Option (List UInt8) → Option (Option (List UInt8) × ℕ)
  | (off, b, some nk) => do
      let c ← nk[0]?
      if off = 0 ∧ S.carries b c then some (some (S.top :: nk), size + 1)
      else some (some nk, size)
  | (_, _, none) => some (none, size)

/-- The body shared by the two functions. -/
def changeKeyDefault (S : KeyChange) (fuel : ℕ) (k1 : List UInt8) (out : Bool) (amount : ℤ) :
    Option (Option (List UInt8) × ℕ) := do
  let off := k1.length - 1
  let b ← k1[off]?
  let nk := if out then some k1 else none
  let r ← changeLoop S k1 fuel off (S.change b (UInt8.ofInt amount)) nk
  extendKey S k1.length r

/-- Bytes go up. -/
def incrChange : KeyChange where
  change b n := b + n
  carries b c := b < c
  top := 0x01
  change_zero := UInt8.add_zero
  carries_self b := decide_eq_false (UInt8.lt_irrefl b)

/-- Bytes go down. -/
def decrChange : KeyChange where
  change b n := b - n
  carries b c := c < b
  top := 0xFF
  change_zero b := UInt8.sub_zero b
  carries_self b := decide_eq_false (UInt8.lt_irrefl b)

/-- `incr_key_default`. -/
def incrKeyDefault := changeKeyDefault incrChange

/-- `decr_key_default`. -/
def decrKeyDefault := changeKeyDefault decrChange

/-! ## Numbers -/

/-- The number that a key stands for. -/
def number (key : List UInt8) : ℕ := Nat.ofDigits 256 (key.reverse.map UInt8.toNat)

theorem number_append (p q : List UInt8) :
    number (p ++ q) = 256 ^ q.length * number p + number q := by
  rw [number, List.reverse_append, List.map_append, Nat.ofDigits_append, List.length_map,
    List.length_reverse, Nat.add_comm]
  rfl

theorem number_singleton (c : UInt8) : number [c] = c.toNat := by
  simp [number]

theorem number_cons (c : UInt8) (q : List UInt8) :
    number (c :: q) = 256 ^ q.length * c.toNat + number q := by
  rw [← List.singleton_append, number_append, number_singleton]

theorem number_concat (p : List UInt8) (x : UInt8) :
    number (p ++ [x]) = 256 * number p + x.toNat := by
  rw [number_append, number_singleton, List.length_singleton, pow_one]

theorem number_lt (key : List UInt8) : number key < 256 ^ key.length := by
  have hbytes : ∀ d ∈ key.reverse.map UInt8.toNat, d < 256 := by
    intro d hd
    obtain ⟨c, -, rfl⟩ := List.mem_map.mp hd
    exact c.toNat_lt
  have hlt := Nat.ofDigits_lt_base_pow_length (by decide) hbytes
  rwa [List.length_map, List.length_reverse] at hlt

variable {S : KeyChange} {key nk s : List UInt8} {b c x : UInt8} {amount : ℤ} {fuel off : ℕ}
  {r : ℕ × UInt8 × Option (List UInt8)}

/-! ## The carry that is lost -/

/-- The bytes behind a position were computed, and the carry to the byte there is still due. -/
structure CarryDue (key : List UInt8) (total off : ℕ) (b : UInt8) (nk p : List UInt8) (c : UInt8)
    (q s : List UInt8) : Prop where
  key_eq : key = p ++ c :: q
  length_front : p.length = off
  nk_eq : nk = p ++ c :: s
  length_rest : s.length = q.length
  pos : 0 < s.length
  byte : b = c + 1
  total_eq : total = number nk + 256 ^ s.length

theorem getElem?_front {p q : List UInt8} (hlen : p.length = off) : (p ++ c :: q)[off]? = some c := by
  rw [← hlen, List.getElem?_append_right (Nat.le_refl _), Nat.sub_self, List.getElem?_cons_zero]

theorem set_front {p q : List UInt8} (hlen : p.length = off) (b : UInt8) :
    (p ++ c :: q).set off b = p ++ b :: q := by
  rw [← hlen, List.set_append_right _ _ (Nat.le_refl _), Nat.sub_self, List.set_cons_zero]

theorem toNat_add_byte (x n : UInt8) : (x + n).toNat = (x.toNat + n.toNat) % 256 := UInt8.toNat_add x n

theorem toNat_of_wrapped {x n : UInt8} (h : x + n < x) :
    (x + n).toNat + 256 = x.toNat + n.toNat := by
  have hlt := UInt8.lt_iff_toNat_lt.mp h
  rw [toNat_add_byte] at hlt ⊢
  have hx := x.toNat_lt
  have hn := n.toNat_lt
  omega

theorem eq_of_wrapped (h : c + 1 < c) : c = 255 := by
  have hsum := toNat_of_wrapped h
  have hlt := UInt8.lt_iff_toNat_lt.mp h
  have hc := c.toNat_lt
  rw [UInt8.toNat_one] at hsum
  refine UInt8.toNat_inj.mp ?_
  rw [show UInt8.toNat 255 = 255 from rfl]
  omega

/-- Storing a wrapped byte moves the carry one byte to the front. -/
theorem CarryDue.step {p q : List UInt8} {c₀ : UInt8} {total : ℕ}
    (h : CarryDue key total off b nk (p ++ [c₀]) c q s) (hwrap : b < c) :
    CarryDue key total (off - 1) (c₀ + 1) (nk.set off b) p c₀ (c :: q) (b :: s) := by
  have hlen := h.length_front
  have hc : c = 255 := eq_of_wrapped (h.byte ▸ hwrap)
  have hb : b = 0 := by
    rw [h.byte, hc]
    rfl
  have hset : nk.set off b = p ++ c₀ :: b :: s := by
    rw [h.nk_eq, set_front hlen, List.append_assoc, List.singleton_append]
  have htotal := h.total_eq
  rw [h.nk_eq, List.append_assoc, List.singleton_append] at htotal
  rw [List.length_append, List.length_singleton] at hlen
  refine ⟨?_, by omega, hset, ?_, Nat.succ_pos _, rfl, ?_⟩
  · rw [h.key_eq, List.append_assoc, List.singleton_append]
  · rw [List.length_cons, List.length_cons, h.length_rest]
  · have hbyte : c.toNat = 255 := by
      rw [hc]
      rfl
    have hzero : b.toNat = 0 := by
      rw [hb]
      rfl
    rw [htotal, hset, number_append, number_append, number_cons c₀, number_cons c₀, number_cons c,
      number_cons b, hbyte, hzero]
    simp only [List.length_cons, pow_succ]
    ring

theorem CarryDue.changeLoop {p q : List UInt8} {total : ℕ}
    (h : CarryDue key total off b nk p c q s) (fuel : ℕ)
    (hrun : changeLoop incrChange key fuel off b (some nk) = some r) :
    ∃ nk' p' c' q' s', r.2.2 = some nk' ∧ CarryDue key total r.1 r.2.1 nk' p' c' q' s' := by
  induction fuel generalizing off b nk p c q s with
  | zero => cases hrun
  | succ fuel ih =>
      rw [BinHeap.changeLoop, h.key_eq, getElem?_front h.length_front, ← h.key_eq] at hrun
      simp only [Option.bind_eq_bind, Option.bind_some] at hrun
      split at hrun
      case isTrue hgo =>
        obtain ⟨hpos, hwrap⟩ := hgo
        have hne : p ≠ [] := by
          rintro rfl
          exact absurd h.length_front (Nat.ne_of_lt hpos)
        obtain ⟨p₀, c₀, rfl⟩ := (List.eq_nil_or_concat' p).resolve_left hne
        have hstep := h.step (of_decide_eq_true hwrap)
        have hfront : key[off - 1]? = some c₀ := by
          rw [hstep.key_eq, getElem?_front hstep.length_front]
        rw [hfront] at hrun
        exact ih hstep hrun
      case isFalse hstop =>
        cases hrun
        exact ⟨nk, p, c, q, s, rfl, h⟩

/-! ## The result -/

/-- The loop starts at the last byte. -/
theorem changeKeyDefault_concat (S : KeyChange) (fuel : ℕ) (front : List UInt8) (x : UInt8)
    (out : Bool) (amount : ℤ) : changeKeyDefault S fuel (front ++ [x]) out amount =
      (changeLoop S (front ++ [x]) fuel front.length (S.change x (UInt8.ofInt amount))
        (if out then some (front ++ [x]) else none)).bind
          (extendKey S (front ++ [x]).length) := by
  have hlast : (front ++ [x]).length - 1 = front.length := by
    rw [List.length_append, List.length_singleton, Nat.add_sub_cancel]
  rw [changeKeyDefault, hlast, getElem?_front rfl]
  rfl

theorem toNat_ofInt (hle : 0 ≤ amount) (hlt : amount ≤ 255) :
    ((UInt8.ofInt amount).toNat : ℤ) = amount := by
  rw [UInt8.ofInt, UInt8.toNat_ofNat']
  omega

/-- The first round stores the last byte if it wrapped and is not the only one. -/
theorem changeLoop_last {front : List UInt8} {x n : UInt8}
    (hrun : changeLoop incrChange (front ++ [x]) fuel front.length (x + n) (some (front ++ [x])) =
      some r) :
    r = (front.length, x + n, some (front ++ [x])) ∧ ¬ (0 < front.length ∧ x + n < x) ∨
      ∃ nk p c q s, r.2.2 = some nk ∧
        CarryDue (front ++ [x]) (number (front ++ [x]) + n.toNat) r.1 r.2.1 nk p c q s := by
  cases fuel with
  | zero => cases hrun
  | succ fuel =>
      rw [changeLoop, getElem?_front rfl] at hrun
      simp only [Option.bind_eq_bind, Option.bind_some] at hrun
      split at hrun
      case isFalse hstop =>
        cases hrun
        exact Or.inl ⟨rfl, fun hgo => hstop ⟨hgo.1, decide_eq_true hgo.2⟩⟩
      case isTrue hgo =>
        have hwrap : x + n < x := of_decide_eq_true hgo.2
        obtain ⟨p, c, rfl⟩ := (List.eq_nil_or_concat' front).resolve_left
          (List.length_pos_iff.mp hgo.1)
        have hkey : p ++ [c] ++ [x] = p ++ c :: [x] := by
          rw [List.append_assoc, List.singleton_append]
        have hfront : (p ++ [c]).length - 1 = p.length := by
          rw [List.length_append, List.length_singleton, Nat.add_sub_cancel]
        have hset : (p ++ [c] ++ [x]).set (p ++ [c]).length (x + n) = p ++ c :: [x + n] := by
          rw [set_front rfl, List.append_assoc, List.singleton_append]
        have htotal : number (p ++ [c] ++ [x]) + n.toNat =
            number (p ++ c :: [x + n]) + 256 ^ [x + n].length := by
          have hsum := toNat_of_wrapped hwrap
          have hkey' : p ++ c :: [x + n] = p ++ [c] ++ [x + n] := by
            rw [List.append_assoc, List.singleton_append]
          rw [hkey', number_concat, number_concat (p ++ [c]), List.length_singleton, pow_one]
          omega
        rw [hset, hfront, hkey, getElem?_front rfl, ← hkey] at hrun
        have hdue : CarryDue (p ++ [c] ++ [x]) (number (p ++ [c] ++ [x]) + n.toNat) p.length (c + 1)
            (p ++ c :: [x + n]) p c [x] [x + n] :=
          ⟨hkey, rfl, rfl, rfl, Nat.one_pos, rfl, htotal⟩
        exact Or.inr (hdue.changeLoop fuel hrun)

/-- Nothing is added to a key whose last byte does not wrap, and otherwise the carry is lost: the
incremented key never has the right value. -/
theorem number_incrKeyDefault_ne (hne : key ≠ []) (hpos : 0 < amount) (hle : amount ≤ 255)
    {size : ℕ} (hrun : incrKeyDefault fuel key true amount = some (some nk, size)) :
    (number nk : ℤ) ≠ number key + amount := by
  obtain ⟨front, x, rfl⟩ := (List.eq_nil_or_concat' key).resolve_left hne
  have hn := toNat_ofInt (Int.le_of_lt hpos) hle
  rw [incrKeyDefault, changeKeyDefault_concat, if_pos rfl] at hrun
  generalize UInt8.ofInt amount = n at hn hrun
  obtain ⟨r, hloop, hrun⟩ := Option.bind_eq_some_iff.mp hrun
  rcases changeLoop_last hloop with ⟨rfl, hstop⟩ | ⟨nk', p, c, q, s, hnk, hdue⟩
  · obtain ⟨c, -, hrun⟩ := Option.bind_eq_some_iff.mp hrun
    split at hrun
    case isTrue htop =>
      cases hrun
      rw [List.length_eq_zero_iff.mp htop.1, List.nil_append, number_cons, number_singleton,
        List.length_singleton, show incrChange.top.toNat = 1 from rfl]
      omega
    case isFalse hbot =>
      cases hrun
      omega
  · obtain ⟨off, b, nk''⟩ := r
    cases hnk
    obtain ⟨c', -, hrun⟩ := Option.bind_eq_some_iff.mp hrun
    have hlen : nk'.length = (front ++ [x]).length := by
      rw [hdue.nk_eq, hdue.key_eq, List.length_append, List.length_append, List.length_cons,
        List.length_cons, hdue.length_rest]
    have hless : s.length < nk'.length := by
      rw [hdue.nk_eq, List.length_append, List.length_cons]
      omega
    have htotal := hdue.total_eq
    split at hrun
    case isTrue htop =>
      cases hrun
      have hpow : 256 ^ s.length < 256 ^ nk'.length := Nat.pow_lt_pow_right (by decide) hless
      rw [number_cons, show incrChange.top.toNat = 1 from rfl]
      omega
    case isFalse hbot =>
      cases hrun
      have hpow : 0 < 256 ^ s.length := Nat.pow_pos (by decide)
      omega

/-! ## When the loops end -/

/-- The loop ends, so that there is a result. -/
def Ends (S : KeyChange) (key : List UInt8) (out : Bool) (amount : ℤ) : Prop :=
  ∃ fuel, (changeKeyDefault S fuel key out amount).isSome = true

/-- The loop is left at once. -/
theorem changeLoop_stop (hc : key[off]? = some c) (hstop : ¬ (0 < off ∧ S.carries b c = true))
    (fuel : ℕ) (nk : Option (List UInt8)) :
    changeLoop S key (fuel + 1) off b nk = some (off, b, nk) := by
  rw [changeLoop, hc]
  simp only [Option.bind_eq_bind, Option.bind_some]
  rw [if_neg hstop]

/-- With an output buffer, the position goes down. -/
theorem exists_changeLoop (hnk : nk.length = key.length) (hoff : off < key.length) :
    ∃ fuel off' b' nk', changeLoop S key fuel off b (some nk) = some (off', b', some nk') ∧
      nk'.length = key.length := by
  induction off generalizing b nk with
  | zero =>
      exact ⟨1, 0, b, nk, changeLoop_stop (List.getElem?_eq_getElem hoff)
        (fun hgo => absurd hgo.1 (Nat.lt_irrefl 0)) 0 (some nk), hnk⟩
  | succ off ih =>
      by_cases hcarry : S.carries b key[off + 1] = true
      · have hset : (nk.set (off + 1) b).length = key.length := by
          rw [List.length_set, hnk]
        obtain ⟨fuel, off', b', nk', hrun, hlen⟩ :=
          ih (b := S.change key[off] 1) hset (Nat.lt_of_succ_lt hoff)
        refine ⟨fuel + 1, off', b', nk', ?_, hlen⟩
        rw [changeLoop, List.getElem?_eq_getElem hoff]
        simp only [Option.bind_eq_bind, Option.bind_some]
        rw [if_pos ⟨Nat.succ_pos off, hcarry⟩, Nat.add_sub_cancel,
          List.getElem?_eq_getElem (Nat.lt_of_succ_lt hoff)]
        exact hrun
      · exact ⟨1, off + 1, b, nk, changeLoop_stop (List.getElem?_eq_getElem hoff)
          (fun hgo => hcarry hgo.2) 0 (some nk), hnk⟩

/-- Without one the loop stays at the last byte. -/
theorem changeLoop_none (hc : key[off]? = some c) (hpos : 0 < off)
    (hcarry : S.carries (S.change c 1) c = true) (hb : S.carries b c = true) (fuel : ℕ) :
    changeLoop S key fuel off b none = none := by
  induction fuel generalizing b with
  | zero => rfl
  | succ fuel ih =>
      rw [changeLoop, hc]
      simp only [Option.bind_eq_bind, Option.bind_some]
      rw [if_pos ⟨hpos, hb⟩]
      exact ih hcarry

/-- Without an output buffer, a carry out of the last byte of a longer key goes on for ever
exactly if it would also come from adding or subtracting one. -/
theorem ends_iff (S : KeyChange) (front : List UInt8) (x : UInt8) (out : Bool) (amount : ℤ) :
    Ends S (front ++ [x]) out amount ↔ out = true ∨ front = [] ∨
      S.carries (S.change x (UInt8.ofInt amount)) x = false ∨
      S.carries (S.change x 1) x = false := by
  have hlen : front.length < (front ++ [x]).length := by
    rw [List.length_append, List.length_singleton]
    exact Nat.lt_succ_self _
  cases out with
  | true =>
      obtain ⟨fuel, off, b, nk, hrun, hnk⟩ := exists_changeLoop (S := S)
        (b := S.change x (UInt8.ofInt amount)) (rfl : (front ++ [x]).length = _) hlen
      refine iff_of_true ⟨fuel, ?_⟩ (Or.inl rfl)
      rw [changeKeyDefault_concat, if_pos rfl, hrun, Option.bind_some, extendKey,
        List.getElem?_eq_getElem (by omega)]
      simp only [Option.bind_eq_bind, Option.bind_some]
      split <;> rfl
  | false =>
      have hc : (front ++ [x])[front.length]? = some x := getElem?_front rfl
      rw [Ends, or_iff_right Bool.false_ne_true]
      simp only [changeKeyDefault_concat, if_neg Bool.false_ne_true]
      by_cases hfront : front = []
      · refine iff_of_true ⟨1, ?_⟩ (Or.inl hfront)
        rw [changeLoop_stop hc fun hgo => absurd hfront (List.length_pos_iff.mp hgo.1)]
        rfl
      rw [or_iff_right hfront]
      have hpos := List.length_pos_iff.mpr hfront
      by_cases hcarry : S.carries (S.change x (UInt8.ofInt amount)) x = true
      · rw [hcarry, or_iff_right Bool.noConfusion]
        by_cases hagain : S.carries (S.change x 1) x = true
        · rw [hagain]
          refine iff_of_false ?_ Bool.noConfusion
          rintro ⟨fuel, hsome⟩
          rw [changeLoop_none hc hpos hagain hcarry] at hsome
          cases hsome
        · refine iff_of_true ⟨2, ?_⟩ (Bool.eq_false_iff.mpr hagain)
          rw [changeLoop, hc]
          simp only [Option.bind_eq_bind, Option.bind_some]
          rw [if_pos ⟨hpos, hcarry⟩, changeLoop_stop hc fun hgo => hagain hgo.2]
          rfl
      · refine iff_of_true ⟨1, ?_⟩ (Or.inl (Bool.eq_false_iff.mpr hcarry))
        rw [changeLoop_stop hc fun hgo => hcarry hgo.2]
        rfl

theorem extendKey_stop (hc : nk[0]? = some c) (hstop : ¬ (off = 0 ∧ S.carries b c = true))
    (size : ℕ) : extendKey S size (off, b, some nk) = some (some nk, size) := by
  rw [extendKey, hc]
  simp only [Option.bind_eq_bind, Option.bind_some]
  rw [if_neg hstop]

theorem changeKeyDefault_zero (S : KeyChange) (hne : key ≠ []) (out : Bool) :
    changeKeyDefault S 1 key out 0 = some (if out then some key else none, key.length) := by
  obtain ⟨front, x, rfl⟩ := (List.eq_nil_or_concat' key).resolve_left hne
  have hsame : S.change x (UInt8.ofInt 0) = x := S.change_zero x
  have hcarry : ¬ S.carries x x = true := Bool.eq_false_iff.mp (S.carries_self x)
  rw [changeKeyDefault_concat, hsame,
    changeLoop_stop (getElem?_front rfl) fun hgo => hcarry hgo.2, Option.bind_some]
  cases out with
  | false => rfl
  | true =>
      cases front with
      | nil => exact extendKey_stop rfl (fun hgo => hcarry hgo.2) _
      | cons y front => exact extendKey_stop rfl (fun hgo => Nat.succ_ne_zero _ hgo.1) _

/-! ## What is right -/

/-- Incrementing a key adds to its number, with one more byte if the sum needs it, decrementing
gives the number back, and all loops end. -/
structure IncrementsRightly (key : List UInt8) (incr : ℤ) : Prop where
  value : ∃ fuel nk, incrKeyDefault fuel key true incr = some (some nk, nk.length) ∧
    (number nk : ℤ) = number key + incr ∧
    nk.length = (if number key + incr < 256 ^ key.length then key.length else key.length + 1) ∧
    ∃ fuel' dk, decrKeyDefault fuel' nk true incr = some (some dk, dk.length) ∧
      number dk = number key
  ends : ∀ out, Ends incrChange key out incr ∧ Ends decrChange key out incr

/-- Only an increment of zero is right. -/
theorem incrementsRightly_iff (hne : key ≠ []) (hle : 0 ≤ amount) (hlt : amount ≤ 255) :
    IncrementsRightly key amount ↔ amount = 0 := by
  constructor
  · rintro ⟨⟨fuel, nk, hrun, hvalue, -⟩, -⟩
    by_contra hzero
    exact number_incrKeyDefault_ne hne (by omega) hlt hrun hvalue
  · rintro rfl
    have hzero := fun S => changeKeyDefault_zero S hne
    have hfits : (number key : ℤ) + 0 < 256 ^ key.length := by
      rw [add_zero]
      exact_mod_cast number_lt key
    refine ⟨⟨1, key, hzero incrChange true, (add_zero _).symm, ?_, 1, key,
      hzero decrChange true, rfl⟩, fun out => ⟨⟨1, ?_⟩, ⟨1, ?_⟩⟩⟩
    · rw [if_pos hfits]
    · rw [hzero]
      rfl
    · rw [hzero]
      rfl

theorem incrementsRightly_iff_zero :
    IncrementsRightly [0, 0xFF] 0 ↔ (0 : ℤ) = 0 :=
  incrementsRightly_iff (by decide) (by decide) (by decide)

/-- One added to `5` is `5`, and one added to `0 255` without an output pointer never ends. -/
theorem increment_is_lost : ¬ IncrementsRightly [5] 1 ∧ ¬ IncrementsRightly [0, 0xFF] 1 ∧
    incrKeyDefault 1 [5] true 1 = some (some [5], 1) ∧ ¬ Ends incrChange [0, 0xFF] false 1 := by
  have hends : ¬ Ends incrChange [0, 0xFF] false 1 :=
    mt (ends_iff incrChange [0] 0xFF false 1).mp (by decide)
  refine ⟨?_, fun h => hends (h.ends false).1, rfl, hends⟩
  rintro ⟨⟨fuel, nk, hrun, hvalue, -⟩, -⟩
  cases fuel with
  | zero => cases hrun
  | succ fuel =>
      cases hrun
      exact absurd hvalue (by decide)

end BinHeap
end LibHL
