import LibHL.Comparators.IntegerKeys
import Mathlib.Data.List.Lex

/-!
# The default key comparison of the red-black tree

Without a callback, keys are compared by `memcmp` on the common length, and the
difference of the lengths is added to or subtracted from its result.  The two parts mix:
the comparison is a total order exactly if the numbers that `memcmp` returns outweigh
every difference of lengths, and leave room for it in an `int`.
-/

namespace LibHL.Comparators

/-! ## Byte strings -/

/-- The bytes of a key as numbers, which are ordered lexicographically. -/
def word (k : List UInt8) : List ℕ := k.map UInt8.toNat

theorem word_injective : Function.Injective word :=
  List.map_injective_iff.mpr fun _ _ h => UInt8.toNat_inj.mp h

theorem word_cons (x : UInt8) (p : List UInt8) : word (x :: p) = x.toNat :: word p := rfl

theorem word_append (p q : List UInt8) : word (p ++ q) = word p ++ word q :=
  List.map_append

theorem append_lt_append {p : List ℕ} : ∀ {q : List ℕ}, p.length = q.length → p < q →
    ∀ r s : List ℕ, p ++ r < q ++ s := by
  induction p with
  | nil =>
      intro q hlen hlt
      rw [List.length_nil] at hlen
      rw [List.length_eq_zero_iff.mp hlen.symm] at hlt
      exact absurd hlt (lt_irrefl _)
  | cons x p ih =>
      intro q hlen hlt r s
      cases q with
      | nil => exact absurd hlen (Nat.succ_ne_zero _)
      | cons y q =>
          rw [List.cons_append, List.cons_append, List.cons_lt_cons_iff]
          rcases List.cons_lt_cons_iff.mp hlt with hxy | ⟨hxy, hpq⟩
          · exact Or.inl hxy
          · exact Or.inr ⟨hxy, ih (Nat.succ.inj hlen) hpq r s⟩

theorem lt_append_self (p : List ℕ) {s : List ℕ} (hs : s ≠ []) : p < p ++ s := by
  obtain ⟨x, s, rfl⟩ := List.exists_cons_of_ne_nil hs
  have h : p ++ [] < p ++ x :: s := List.append_left_lt (List.nil_lt_cons x s)
  rwa [List.append_nil] at h

theorem word_eq_nil (s : List UInt8) : word s = [] ↔ s = [] := List.map_eq_nil_iff

theorem word_lt_iff {p q : List UInt8} (hlen : p.length = q.length) (hne : p ≠ q)
    {r s : List UInt8} : word (p ++ r) < word (q ++ s) ↔ word p < word q := by
  have hword : (word p).length = (word q).length := by
    rw [word, word, List.length_map, List.length_map, hlen]
  rw [word_append, word_append]
  refine ⟨fun hlt => ?_, fun hlt => append_lt_append hword hlt _ _⟩
  rcases lt_trichotomy (word p) (word q) with hpq | hpq | hpq
  · exact hpq
  · exact absurd (word_injective hpq) hne
  · exact absurd (append_lt_append hword.symm hpq _ _) (asymm hlt)

theorem exists_split {a b : List UInt8} (h : a.length ≤ b.length) :
    ∃ q s, b = q ++ s ∧ a.length = q.length :=
  ⟨b.take a.length, b.drop a.length, (List.take_append_drop _ _).symm,
    (List.length_take_of_le h).symm⟩

/-! ## Comparing -/

/-- `memcmp` on strings of the same length, of which only the sign of the result is
known. -/
structure Memcmp where
  memcmp : List UInt8 → List UInt8 → ℤ
  int_range : ∀ p q, -2 ^ 31 ≤ memcmp p q ∧ memcmp p q < 2 ^ 31
  neg_iff : ∀ p q, p.length = q.length → (memcmp p q < 0 ↔ word p < word q)
  pos_iff : ∀ p q, p.length = q.length → (0 < memcmp p q ↔ word q < word p)

/-- A comparison function of the caller. -/
abbrev Callback := List UInt8 → ℕ → List UInt8 → ℕ → ℤ

/-- `rbt_compare_keys`.  The difference of the lengths is a `size_t`, and so is its sum
with the result of `memcmp`. -/
def rbtCompareKeys (M : Memcmp) (cmpKeysCb : Option Callback) (k1 : List UInt8)
    (k1size : ℕ) (k2 : List UInt8) (k2size : ℕ) : ℤ :=
  match cmpKeysCb with
  | some cb => cb k1 k1size k2 k2size
  | none =>
    if k1size ≠ k2size then
      if k1size < k2size then
        toInt ((M.memcmp (k1.take k1size) (k2.take k1size) - (k2size - k1size : ℕ)) % 2 ^ 64)
      else
        toInt ((M.memcmp (k1.take k2size) (k2.take k2size) + (k1size - k2size : ℕ)) % 2 ^ 64)
    else M.memcmp (k1.take k1size) (k2.take k1size)

/-- The default comparison of two keys. -/
def defaultCompare (M : Memcmp) (a b : List UInt8) : ℤ :=
  rbtCompareKeys M none a a.length b b.length

/-- The bound on the length of a key. -/
def keyLimit : ℕ := 2 ^ 30

/-- A comparison is a strict total order on the keys: zero on equal keys only,
antisymmetric in sign, and transitive. -/
structure StrictTotalOrder (cmp : List UInt8 → List UInt8 → ℤ) : Prop where
  zero_iff : ∀ a b, a.length < keyLimit → b.length < keyLimit → (cmp a b = 0 ↔ a = b)
  antisymm : ∀ a b, a.length < keyLimit → b.length < keyLimit →
    (cmp a b).sign = -(cmp b a).sign
  trans : ∀ a b c, a.length < keyLimit → b.length < keyLimit → c.length < keyLimit →
    cmp a b < 0 → cmp b c < 0 → cmp a c < 0

/-- Between different strings `memcmp` returns more than what the lengths of two keys
that start with them can differ by, and not so much that a difference of lengths makes
it overflow. -/
def Outweighs (M : Memcmp) : Prop :=
  ∀ p q : List UInt8, p.length = q.length → p.length < keyLimit → p ≠ q →
    ∀ m : ℕ, p.length + m < keyLimit →
      m < (M.memcmp p q).natAbs ∧ -2 ^ 31 ≤ M.memcmp p q - m ∧ M.memcmp p q + m < 2 ^ 31

theorem toInt_wrapped (x : ℤ) : toInt (x % 2 ^ 64) = toInt x :=
  toInt_emod_of_dvd x ⟨2 ^ 32, by norm_num⟩

namespace Memcmp

variable (M : Memcmp)

theorem self (p : List UInt8) : M.memcmp p p = 0 := by
  have hneg := mt (M.neg_iff p p rfl).mp (lt_irrefl _)
  have hpos := mt (M.pos_iff p p rfl).mp (lt_irrefl _)
  omega

theorem ne_zero {p q : List UInt8} (hlen : p.length = q.length) (hne : p ≠ q) :
    M.memcmp p q ≠ 0 := by
  intro hzero
  rcases lt_trichotomy (word p) (word q) with h | h | h
  · have := (M.neg_iff p q hlen).mpr h
    omega
  · exact hne (word_injective h)
  · have := (M.pos_iff p q hlen).mpr h
    omega

theorem neg_comm {p q : List UInt8} (hlen : p.length = q.length) :
    M.memcmp p q < 0 ↔ 0 < M.memcmp q p := by
  rw [M.neg_iff p q hlen, M.pos_iff q p hlen.symm]

/-! ## The comparison of a string with a longer one -/

theorem compare_same {p q : List UInt8} (hlen : p.length = q.length) :
    defaultCompare M p q = M.memcmp p q := by
  rw [defaultCompare, rbtCompareKeys]
  rw [if_neg (fun h => h hlen), List.take_length, hlen, List.take_length]

theorem compare_longer {p q : List UInt8} (hlen : p.length = q.length) {s : List UInt8}
    (hs : s ≠ []) : defaultCompare M p (q ++ s) = toInt (M.memcmp p q - s.length) := by
  have hpos := List.length_pos_iff.mpr hs
  rw [defaultCompare, rbtCompareKeys, List.length_append]
  rw [if_pos (by omega), if_pos (by omega), toInt_wrapped, List.take_length]
  have htake : (q ++ s).take p.length = q := by
    rw [hlen, List.take_left']
    rfl
  have hsub : q.length + s.length - p.length = s.length := by
    omega
  rw [htake, hsub]

theorem compare_shorter {p q : List UInt8} (hlen : p.length = q.length) {s : List UInt8}
    (hs : s ≠ []) : defaultCompare M (p ++ s) q = toInt (M.memcmp p q + s.length) := by
  have hpos := List.length_pos_iff.mpr hs
  rw [defaultCompare, rbtCompareKeys, List.length_append]
  rw [if_pos (by omega), if_neg (by omega), toInt_wrapped, List.take_length]
  have htake : (p ++ s).take q.length = p := by
    rw [← hlen, List.take_left']
    rfl
  have hsub : p.length + s.length - q.length = s.length := by
    omega
  rw [htake, hsub]

/-! ## When the comparison is an order -/

theorem toInt_eq_self {x : ℤ} (h : -2 ^ 31 ≤ x) (h' : x < 2 ^ 31) : toInt x = x := by
  rw [toInt_eq]
  split <;> omega

/-- If `memcmp` outweighs the lengths, a comparison has the sign of the lexicographic
order. -/
theorem compare_sign (h : Outweighs M) {a b : List UInt8} (ha : a.length < keyLimit)
    (hb : b.length < keyLimit) :
    (defaultCompare M a b < 0 ↔ word a < word b) ∧
      (0 < defaultCompare M a b ↔ word b < word a) := by
  rw [keyLimit] at ha hb
  rcases Nat.lt_trichotomy a.length b.length with hlt | heq | hgt
  · obtain ⟨q, s, rfl, hlen⟩ := exists_split (le_of_lt hlt)
    have hs : s ≠ [] := by
      rintro rfl
      rw [List.append_nil] at hlt
      exact absurd hlen (ne_of_lt hlt)
    have hpos := List.length_pos_iff.mpr hs
    rw [List.length_append] at hb
    rw [compare_longer M hlen hs]
    by_cases hne : a = q
    · subst hne
      have hext := lt_append_self (word a) (mt (word_eq_nil s).mp hs)
      rw [M.self, toInt_eq_self (by omega) (by omega), word_append]
      exact ⟨iff_of_true (by omega) hext, iff_of_false (by omega) (asymm hext)⟩
    · obtain ⟨hbig, hlo, -⟩ := h a q hlen ha hne s.length (by rw [keyLimit]; omega)
      have hint := M.int_range a q
      rw [toInt_eq_self hlo (by omega), ← List.append_nil a]
      rw [word_lt_iff hlen hne, word_lt_iff hlen.symm (Ne.symm hne), List.append_nil]
      rw [← M.neg_iff a q hlen, ← M.pos_iff a q hlen]
      omega
  · rw [compare_same M heq]
    exact ⟨M.neg_iff a b heq, M.pos_iff a b heq⟩
  · obtain ⟨p, s, rfl, hlen⟩ := exists_split (le_of_lt hgt)
    have hs : s ≠ [] := by
      rintro rfl
      rw [List.append_nil] at hgt
      exact absurd hlen (ne_of_lt hgt)
    have hpos := List.length_pos_iff.mpr hs
    rw [List.length_append] at ha
    rw [compare_shorter M hlen.symm hs]
    by_cases hne : p = b
    · subst hne
      have hext := lt_append_self (word p) (mt (word_eq_nil s).mp hs)
      rw [M.self, toInt_eq_self (by omega) (by omega), word_append]
      exact ⟨iff_of_false (by omega) (asymm hext), iff_of_true (by omega) hext⟩
    · obtain ⟨hbig, -, hhi⟩ :=
        h p b hlen.symm (by rw [keyLimit]; omega) hne s.length (by rw [keyLimit]; omega)
      have hint := M.int_range p b
      rw [toInt_eq_self (by omega) hhi, ← List.append_nil b]
      rw [word_lt_iff hlen.symm hne, word_lt_iff hlen (Ne.symm hne), List.append_nil]
      rw [← M.neg_iff p b hlen.symm, ← M.pos_iff p b hlen.symm]
      omega

theorem order_of_outweighs (h : Outweighs M) : StrictTotalOrder (defaultCompare M) where
  zero_iff := by
    intro a b ha hb
    obtain ⟨hneg, hpos⟩ := M.compare_sign h ha hb
    constructor
    · intro hzero
      rw [hzero] at hneg hpos
      apply word_injective
      apply le_antisymm
      · exact not_lt.mp fun hlt => absurd (hpos.mpr hlt) (lt_irrefl _)
      · exact not_lt.mp fun hlt => absurd (hneg.mpr hlt) (lt_irrefl _)
    · rintro rfl
      rw [compare_same M rfl, M.self]
  antisymm := by
    intro a b ha hb
    obtain ⟨hneg, hpos⟩ := M.compare_sign h ha hb
    obtain ⟨hneg', hpos'⟩ := M.compare_sign h hb ha
    rw [← Int.sign_neg, sign_eq_sign_iff]
    rw [hneg, hpos, Int.neg_neg_iff_pos, Int.neg_pos, hneg', hpos']
    exact ⟨Iff.rfl, Iff.rfl⟩
  trans := by
    intro a b d ha hb hd hab hbd
    rw [(M.compare_sign h ha hb).1] at hab
    rw [(M.compare_sign h hb hd).1] at hbd
    rw [(M.compare_sign h ha hd).1]
    exact lt_trans hab hbd

/-- `m` zero bytes. -/
def zeros (m : ℕ) : List UInt8 := List.replicate m 0

theorem length_zeros (m : ℕ) : (zeros m).length = m := List.length_replicate

theorem zeros_ne_nil {m : ℕ} (h : 0 < m) : zeros m ≠ [] :=
  List.length_pos_iff.mp ((length_zeros m).symm ▸ h)

theorem length_extend (p : List UInt8) (m : ℕ) : (p ++ zeros m).length = p.length + m := by
  rw [List.length_append, length_zeros]

theorem extend_greater (p : List UInt8) {m : ℕ} (hpos : 0 < m) (hm : m < 2 ^ 30) :
    defaultCompare M p (p ++ zeros m) < 0 := by
  rw [compare_longer M rfl (zeros_ne_nil hpos), M.self, length_zeros,
    toInt_eq_self (by omega) (by omega)]
  omega

section

variable {M} (h : StrictTotalOrder (defaultCompare M)) {p q : List UInt8}
  (hlen : p.length = q.length)

include h hlen

theorem lt_natAbs_of_order (hne : p ≠ q) {m : ℕ} (hroom : p.length + m < keyLimit) :
    m < (M.memcmp p q).natAbs := by
  by_contra hle
  have hnonzero := M.ne_zero hlen hne
  obtain ⟨k, hk⟩ : ∃ k, (M.memcmp p q).natAbs = k := ⟨_, rfl⟩
  have hkm : 0 < k ∧ k ≤ m := by
    omega
  have hs := zeros_ne_nil hkm.1
  by_cases hneg : M.memcmp p q < 0
  · have hzero : defaultCompare M (p ++ zeros k) q = 0 := by
      have hsum : M.memcmp p q + k = 0 := by
        omega
      rw [compare_shorter M hlen hs, length_zeros, hsum]
      rfl
    rw [h.zero_iff _ _ (by rw [length_extend]; omega) (by omega)] at hzero
    have hlens := congrArg List.length hzero
    rw [length_extend] at hlens
    omega
  · have hzero : defaultCompare M p (q ++ zeros k) = 0 := by
      have hsum : M.memcmp p q - k = 0 := by
        omega
      rw [compare_longer M hlen hs, length_zeros, hsum]
      rfl
    rw [h.zero_iff _ _ (by omega) (by rw [length_extend]; omega)] at hzero
    have hlens := congrArg List.length hzero
    rw [length_extend] at hlens
    omega

theorem le_sub_of_order {m : ℕ} (hroom : p.length + m < keyLimit) :
    -2 ^ 31 ≤ M.memcmp p q - m := by
  by_contra hlow
  have hint := M.int_range p q
  obtain ⟨k, hk⟩ : ∃ k : ℕ, (k : ℤ) = M.memcmp p q + 2 ^ 31 + 1 :=
    ⟨_, Int.toNat_of_nonneg (by omega)⟩
  rw [keyLimit] at hroom
  have hpos : 0 < k := by
    omega
  have hlt : p.length < keyLimit ∧ q.length < keyLimit ∧
      (q ++ zeros k).length < keyLimit := by
    rw [length_extend, keyLimit]
    omega
  have hpq : defaultCompare M p q < 0 := by
    rw [compare_same M hlen]
    omega
  have hext := M.extend_greater q hpos (by omega)
  have hover : 0 < defaultCompare M p (q ++ zeros k) := by
    rw [compare_longer M hlen (zeros_ne_nil hpos), length_zeros, toInt_eq]
    split <;> omega
  exact asymm hover (h.trans _ _ _ hlt.1 hlt.2.1 hlt.2.2 hpq hext)

theorem add_lt_of_order {m : ℕ} (hroom : p.length + m < keyLimit) :
    M.memcmp p q + m < 2 ^ 31 := by
  by_contra hhigh
  have hint := M.int_range p q
  obtain ⟨k, hk⟩ : ∃ k : ℕ, (k : ℤ) = 2 ^ 31 - M.memcmp p q :=
    ⟨_, Int.toNat_of_nonneg (by omega)⟩
  rw [keyLimit] at hroom
  have hpos : 0 < k := by
    omega
  have hlt : p.length < keyLimit ∧ q.length < keyLimit ∧
      (p ++ zeros k).length < keyLimit := by
    rw [length_extend, keyLimit]
    omega
  have hqp : defaultCompare M q p < 0 := by
    rw [compare_same M hlen.symm, neg_comm M hlen.symm]
    omega
  have hext := M.extend_greater p hpos (by omega)
  have hover : defaultCompare M (p ++ zeros k) q < 0 := by
    rw [compare_shorter M hlen (zeros_ne_nil hpos), length_zeros, toInt_eq]
    split <;> omega
  have hback := h.trans _ _ _ hlt.2.2 hlt.2.1 hlt.1 hover hqp
  have hself := h.trans _ _ _ hlt.1 hlt.2.2 hlt.1 hext hback
  rw [compare_same M rfl, M.self] at hself
  exact absurd hself (lt_irrefl _)

end

/-- The default comparison is a strict total order on the keys exactly if `memcmp`
outweighs the lengths. -/
theorem default_order_iff (M : Memcmp) :
    StrictTotalOrder (defaultCompare M) ↔ Outweighs M := by
  refine ⟨fun h p q hlen _ hne m hroom => ?_, M.order_of_outweighs⟩
  exact ⟨lt_natAbs_of_order h hlen hne hroom, le_sub_of_order h hlen hroom,
    add_lt_of_order h hlen hroom⟩

end Memcmp

/-! ## The difference of bytes -/

/-- The difference of the first two bytes that differ. -/
def byteDifference : List UInt8 → List UInt8 → ℤ
  | x :: p, y :: q => if x = y then byteDifference p q else (x.toNat : ℤ) - y.toNat
  | _, _ => 0

theorem byteDifference_range (p : List UInt8) :
    ∀ q, -255 ≤ byteDifference p q ∧ byteDifference p q ≤ 255 := by
  induction p with
  | nil =>
      intro q
      rw [byteDifference]
      · decide
      · nofun
  | cons x p ih =>
      intro q
      cases q with
      | nil =>
          rw [byteDifference]
          · decide
          · nofun
      | cons y q =>
          rw [byteDifference]
          by_cases hxy : x = y
          · rw [if_pos hxy]
            exact ih q
          · rw [if_neg hxy]
            have hx := x.toNat_lt
            have hy := y.toNat_lt
            omega

theorem byteDifference_sign (p : List UInt8) : ∀ q, p.length = q.length →
    (byteDifference p q < 0 ↔ word p < word q) ∧
      (0 < byteDifference p q ↔ word q < word p) := by
  induction p with
  | nil =>
      intro q hlen
      rw [List.length_eq_zero_iff.mp hlen.symm]
      exact ⟨iff_of_false (lt_irrefl _) (lt_irrefl _), iff_of_false (lt_irrefl _) (lt_irrefl _)⟩
  | cons x p ih =>
      intro q hlen
      cases q with
      | nil => exact absurd hlen (Nat.succ_ne_zero _)
      | cons y q =>
          rw [byteDifference, word_cons, word_cons, List.cons_lt_cons_iff,
            List.cons_lt_cons_iff]
          by_cases hxy : x = y
          · subst hxy
            rw [if_pos rfl]
            simpa using ih q (Nat.succ.inj hlen)
          · rw [if_neg hxy]
            have hne : x.toNat ≠ y.toNat := mt UInt8.toNat_inj.mp hxy
            omega

/-- A `memcmp` that returns the difference of the first bytes that differ. -/
def byteMemcmp : Memcmp where
  memcmp := byteDifference
  int_range := by
    intro p q
    have h := byteDifference_range p q
    omega
  neg_iff := fun p q hlen => (byteDifference_sign p q hlen).1
  pos_iff := fun p q hlen => (byteDifference_sign p q hlen).2

/-- The key `2` and the longer key `1 0` compare as equal. -/
theorem length_makes_up_for_content : ¬ ∀ M : Memcmp, StrictTotalOrder (defaultCompare M) := by
  intro h
  have hzero : defaultCompare byteMemcmp [2] [1, 0] = 0 := by
    decide
  have heq := ((h byteMemcmp).zero_iff [2] [1, 0] (by decide) (by decide)).mp hzero
  exact absurd heq (by decide)

end LibHL.Comparators
