import LibHL.Support.Comparator
import Mathlib.Tactic.Ring

/-!
# The integer comparators of `comparators.h`

A comparator reads two keys as integers of its type, subtracts them in the type that the
operands are promoted to, and returns the difference as an `int`.  The difference of
16-bit integers is exact.  A wider one loses what does not fit into 32 bits, so its sign
is right only for keys that are near to each other modulo `2 ^ 32`.
-/

namespace LibHL

/-- The integer types that keys are compared as. -/
inductive IntType where
  | int16
  | int32
  | int64
  | uint16
  | uint32
  | uint64
  deriving DecidableEq

namespace IntType

/-- `sizeof`. -/
def size : IntType → ℕ
  | int16 => 2
  | int32 => 4
  | int64 => 8
  | uint16 => 2
  | uint32 => 4
  | uint64 => 8

/-- The least value. -/
def lo : IntType → ℤ
  | int16 => -2 ^ 15
  | int32 => -2 ^ 31
  | int64 => -2 ^ 63
  | uint16 => 0
  | uint32 => 0
  | uint64 => 0

/-- The greatest value. -/
def hi : IntType → ℤ
  | int16 => 2 ^ 15 - 1
  | int32 => 2 ^ 31 - 1
  | int64 => 2 ^ 63 - 1
  | uint16 => 2 ^ 16 - 1
  | uint32 => 2 ^ 32 - 1
  | uint64 => 2 ^ 64 - 1

/-- The integers of a type. -/
structure Value (T : IntType) where
  val : ℤ
  lo_le : T.lo ≤ val
  le_hi : val ≤ T.hi

end IntType

namespace Comparators

/-! ## Keys in memory -/

/-- The number that bytes stand for, the lowest byte first. -/
def ofBytes : List UInt8 → ℕ
  | [] => 0
  | b :: bs => b.toNat + 256 * ofBytes bs

/-- The lowest bytes of a number. -/
def toBytes : ℕ → ℕ → List UInt8
  | 0, _ => []
  | n + 1, x => UInt8.ofNat x :: toBytes n (x / 256)

/-- What an integer is stored as. -/
def store (T : IntType) (v : ℤ) : List UInt8 :=
  toBytes T.size (v % (256 ^ T.size : ℕ)).toNat

/-- `*((_type *)k)`; there is no result if the key is too short. -/
def load (T : IntType) (k : List UInt8) : Option ℤ :=
  if k.length < T.size then none
  else
    let x := ofBytes (k.take T.size)
    some (if x ≤ T.hi then x else x - (256 ^ T.size : ℕ))

theorem length_toBytes (n : ℕ) : ∀ x, (toBytes n x).length = n := by
  induction n with
  | zero => exact fun _ => rfl
  | succ n ih =>
      intro x
      rw [toBytes, List.length_cons, ih]

theorem ofBytes_toBytes (n : ℕ) : ∀ x, x < 256 ^ n → ofBytes (toBytes n x) = x := by
  induction n with
  | zero =>
      intro x hx
      rw [Nat.pow_zero, Nat.lt_one_iff] at hx
      rw [hx]
      rfl
  | succ n ih =>
      intro x hx
      rw [pow_succ] at hx
      rw [toBytes, ofBytes, ih _ (Nat.div_lt_of_lt_mul (by omega)), UInt8.toNat_ofNat']
      omega

theorem load_store {T : IntType} (v : T.Value) : load T (store T v.val) = some v.val := by
  have hlo := v.lo_le
  have hhi := v.le_hi
  have hpos : (0 : ℤ) < (256 ^ T.size : ℕ) := by
    exact_mod_cast Nat.pow_pos (by decide)
  have hlt : (v.val % (256 ^ T.size : ℕ)).toNat < 256 ^ T.size := by
    have h₁ := Int.emod_lt_of_pos v.val hpos
    have h₂ := Int.emod_nonneg v.val (ne_of_gt hpos)
    omega
  have hnat : ((v.val % (256 ^ T.size : ℕ)).toNat : ℤ) = v.val % (256 ^ T.size : ℕ) :=
    Int.toNat_of_nonneg (Int.emod_nonneg v.val (ne_of_gt hpos))
  rw [load, store, length_toBytes, if_neg (lt_irrefl _)]
  rw [List.take_of_length_le (le_of_eq (length_toBytes _ _)), ofBytes_toBytes _ _ hlt]
  simp only [hnat]
  congr 1
  cases T <;> simp only [IntType.lo, IntType.hi, IntType.size] at * <;> norm_num at * <;>
    split <;> omega

/-! ## Comparing -/

/-- Conversion to `int`. -/
def toInt (x : ℤ) : ℤ := x.bmod (2 ^ 32)

/-- `_k1i - _k2i`.  Operands of 16 bits are promoted to `int`; an unsigned difference
wraps, and a signed one that overflows has no result. -/
def subtract : IntType → ℤ → ℤ → Option ℤ
  | .int16, a, b => some (a - b)
  | .uint16, a, b => some (a - b)
  | .int32, a, b => if -2 ^ 31 ≤ a - b ∧ a - b < 2 ^ 31 then some (a - b) else none
  | .int64, a, b => if -2 ^ 63 ≤ a - b ∧ a - b < 2 ^ 63 then some (a - b) else none
  | .uint32, a, b => some ((a - b) % 2 ^ 32)
  | .uint64, a, b => some ((a - b) % 2 ^ 64)

/-- `LIBHL_CMP_KEYS_TYPE`. -/
def cmpKeysType (T : IntType) (k1 : List UInt8) (k1size : ℕ) (k2 : List UInt8)
    (k2size : ℕ) : Option ℤ :=
  if k1size < T.size ∨ k2size < T.size ∨ k1size ≠ k2size then
    some (toInt (((k1size : ℤ) - k2size) % 2 ^ 64))
  else do
    let k1i ← load T k1
    let k2i ← load T k2
    let d ← subtract T k1i k2i
    some (toInt d)

/-- `libhl_cmp_keys_int16`. -/
def libhlCmpKeysInt16 := cmpKeysType .int16

/-- `libhl_cmp_keys_int32`. -/
def libhlCmpKeysInt32 := cmpKeysType .int32

/-- `libhl_cmp_keys_int64`. -/
def libhlCmpKeysInt64 := cmpKeysType .int64

/-- `libhl_cmp_keys_uint16`. -/
def libhlCmpKeysUint16 := cmpKeysType .uint16

/-- `libhl_cmp_keys_uint32`. -/
def libhlCmpKeysUint32 := cmpKeysType .uint32

/-- `libhl_cmp_keys_uint64`. -/
def libhlCmpKeysUint64 := cmpKeysType .uint64

/-- The comparison of two values that are stored as keys. -/
def cmpValues (T : IntType) (a b : T.Value) : Option ℤ :=
  cmpKeysType T (store T a.val) T.size (store T b.val) T.size

theorem cmpValues_eq {T : IntType} (a b : T.Value) :
    cmpValues T a b = (subtract T a.val b.val).map toInt := by
  have hsize : ¬ (T.size < T.size ∨ T.size < T.size ∨ T.size ≠ T.size) := by
    simp
  rw [cmpValues, cmpKeysType, if_neg hsize, load_store, load_store]
  simp only [Option.bind_eq_bind, Option.bind_some]
  cases subtract T a.val b.val <;> rfl

/-! ## The sign of the result -/

theorem sign_eq_sign_iff (x y : ℤ) :
    x.sign = y.sign ↔ (x < 0 ↔ y < 0) ∧ (0 < x ↔ 0 < y) := by
  rw [← Int.sign_eq_neg_one_iff_neg, ← Int.sign_eq_neg_one_iff_neg (a := y),
    ← Int.sign_eq_one_iff_pos, ← Int.sign_eq_one_iff_pos (a := y)]
  constructor
  · intro h
    rw [h]
    exact ⟨Iff.rfl, Iff.rfl⟩
  · rintro ⟨hneg, hpos⟩
    rcases Int.sign_trichotomy x with hx | hx | hx
    · exact hx.trans (hpos.mp hx).symm
    · rcases Int.sign_trichotomy y with hy | hy | hy
      · exact (hpos.mpr hy).trans hy.symm
      · exact hx.trans hy.symm
      · exact (hneg.mpr hy).trans hy.symm
    · exact hx.trans (hneg.mp hx).symm

/-- The low 32 bits of the distance between two keys are not zero, and leave room for
the sign. -/
def Near (a b : ℤ) : Prop :=
  a = b ∨ (b < a ∧ 0 < (a - b) % 2 ^ 32 ∧ (a - b) % 2 ^ 32 < 2 ^ 31) ∨
    (a < b ∧ 0 < (b - a) % 2 ^ 32 ∧ (b - a) % 2 ^ 32 ≤ 2 ^ 31)

theorem toInt_eq (x : ℤ) :
    toInt x = if x % 2 ^ 32 < 2 ^ 31 then x % 2 ^ 32 else x % 2 ^ 32 - 2 ^ 32 := by
  rw [toInt, Int.bmod_def]
  rfl

theorem sign_toInt_iff (a b : ℤ) : (toInt (a - b)).sign = (a - b).sign ↔ Near a b := by
  rw [sign_eq_sign_iff, toInt_eq, Near]
  by_cases hlow : (a - b) % 2 ^ 32 < 2 ^ 31
  · rw [if_pos hlow]
    omega
  · rw [if_neg hlow]
    omega

theorem toInt_emod_of_dvd (x : ℤ) {m : ℤ} (h : 2 ^ 32 ∣ m) : toInt (x % m) = toInt x := by
  rw [toInt_eq, toInt_eq, Int.emod_emod_of_dvd x h]

/-- When the sign of a comparison is right: the keys are near, and the difference of
64-bit signed keys does not overflow. -/
def SignKept (T : IntType) (a b : ℤ) : Prop :=
  (T = .int64 → -2 ^ 63 ≤ a - b ∧ a - b < 2 ^ 63) ∧ Near a b

/-- Some comparison has the sign of the difference exactly if the difference exists and
the keys are near. -/
theorem subtract_sign_iff (a b : ℤ) {d : ℤ} {x : Option ℤ} (hx : x = some d)
    (hd : toInt d = toInt (a - b)) :
    (∃ r, x.map toInt = some r ∧ r.sign = (a - b).sign) ↔ Near a b := by
  rw [hx, Option.map_some, ← sign_toInt_iff, ← hd]
  constructor
  · rintro ⟨r, hr, hsign⟩
    cases hr
    exact hsign
  · exact fun hsign => ⟨_, rfl, hsign⟩

/-- A comparison returns a number of the sign of the difference of the keys exactly if
the sign is kept. -/
theorem cmpKeys_sign_iff (T : IntType) (a b : T.Value) :
    (∃ r, cmpKeysType T (store T a.val) T.size (store T b.val) T.size = some r ∧
      r.sign = (a.val - b.val).sign) ↔ SignKept T a.val b.val := by
  show (∃ r, cmpValues T a b = some r ∧ _) ↔ _
  rw [cmpValues_eq, SignKept]
  obtain ⟨a, ha, ha'⟩ := a
  obtain ⟨b, hb, hb'⟩ := b
  cases T with
  | int16 => exact (subtract_sign_iff a b rfl rfl).trans (and_iff_right nofun).symm
  | uint16 => exact (subtract_sign_iff a b rfl rfl).trans (and_iff_right nofun).symm
  | uint32 =>
      refine (subtract_sign_iff a b rfl ?_).trans (and_iff_right nofun).symm
      exact toInt_emod_of_dvd _ (dvd_refl _)
  | uint64 =>
      refine (subtract_sign_iff a b rfl ?_).trans (and_iff_right nofun).symm
      exact toInt_emod_of_dvd _ ⟨2 ^ 32, by norm_num⟩
  | int32 =>
      by_cases hfits : -2 ^ 31 ≤ a - b ∧ a - b < 2 ^ 31
      · exact (subtract_sign_iff a b (if_pos hfits) rfl).trans (and_iff_right nofun).symm
      · have hnone : subtract .int32 a b = none := if_neg hfits
        simp only [hnone, Option.map_none]
        refine iff_of_false (fun ⟨r, hr, _⟩ => nomatch hr) ?_
        rintro ⟨-, hnear⟩
        simp only [IntType.lo, IntType.hi] at ha ha' hb hb'
        rw [Near] at hnear
        omega
  | int64 =>
      by_cases hfits : -2 ^ 63 ≤ a - b ∧ a - b < 2 ^ 63
      · exact (subtract_sign_iff a b (if_pos hfits) rfl).trans
          (and_iff_right fun _ => hfits).symm
      · have hnone : subtract .int64 a b = none := if_neg hfits
        simp only [hnone, Option.map_none]
        exact iff_of_false (fun ⟨r, hr, _⟩ => nomatch hr) fun h => hfits (h.1 trivial)

/-- Keys whose distance is a multiple of `2 ^ 32` compare as equal. -/
theorem uint64_ignores_high_word :
    ¬ ∃ r, cmpKeysType .uint64 (store .uint64 (2 ^ 32)) 8 (store .uint64 0) 8 = some r ∧
      r.sign = ((2 ^ 32 : ℤ) - 0).sign := by
  rintro ⟨r, hr, hsign⟩
  have hzero : cmpKeysType .uint64 (store .uint64 (2 ^ 32)) 8 (store .uint64 0) 8 =
      some 0 := by decide
  rw [hzero] at hr
  cases hr
  exact absurd hsign (by decide)

end Comparators
end LibHL
