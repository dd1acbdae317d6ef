import Mathlib.Tactic.Common
import LibHL.FBuf.Model

/-!
# The place of the content in the storage

The content of a flat buffer lies somewhere inside its storage.  Extending and
shrinking move it and change the storage around it, and leave the room that was
asked for behind it.
-/

namespace LibHL
namespace FBuf

open Storage

variable {fb fb' : FBuf} {maxlen newlen len : ℕ} {s : List UInt8}
  {pre post : List (Option UInt8)} {c : Option UInt8}

/-- The content `s` lies in the storage between `pre` and `post`. -/
structure Placed (fb : FBuf) (s : List UInt8) (pre post : List (Option UInt8)) : Prop where
  data : fb.data = some (pre ++ s.map some ++ post)
  skip : fb.skip = pre.length
  used : fb.used = s.length
  len : fb.len = pre.length + s.length + post.length

/-- A buffer without storage. -/
structure NoStorage (fb : FBuf) : Prop where
  data : fb.data = none
  len : fb.len = 0
  used : fb.used = 0
  skip : fb.skip = 0

/-- A limit that is no `UINT_MAX`, the default growth sizes, and a length within the
limit. -/
structure Sized (fb : FBuf) (maxlen : ℕ) : Prop where
  maxlen_eq : fb.maxlen = maxlen
  minlen_eq : fb.minlen = FBUF_MINLEN
  fastgrowsize_eq : fb.fastgrowsize = FBUF_FASTGROWSIZE
  slowgrowsize_eq : fb.slowgrowsize = FBUF_SLOWGROWSIZE
  maxlen_lt : maxlen + 1 < UINT_RANGE
  capped : maxlen ≠ 0 → fb.len ≤ maxlen + 1
  len_lt : fb.len < UINT_RANGE

/-- A limit that does not admit `n` bytes. -/
def Exceeds (maxlen n : ℕ) : Prop := maxlen ≠ 0 ∧ maxlen < n

instance decidableExceeds (maxlen n : ℕ) : Decidable (Exceeds maxlen n) :=
  inferInstanceAs (Decidable (maxlen ≠ 0 ∧ maxlen < n))

/-! ## Arithmetic -/

theorem uadd_of_lt {a b : ℕ} (h : a + b < UINT_RANGE) : uadd a b = a + b := Nat.mod_eq_of_lt h

theorem usub_of_le {a b : ℕ} (hb : b ≤ a) (ha : a < UINT_RANGE) : usub a b = a - b := by
  have hsum : a + (UINT_RANGE - b) = a - b + UINT_RANGE := by omega
  rw [usub, hsum, Nat.add_mod_right, Nat.mod_eq_of_lt (by omega)]

theorem toInt_le_self (n : ℕ) : toInt n ≤ n := by
  rw [toInt]
  split
  · exact le_rfl
  · have : UINT_RANGE = 2 ^ 32 := rfl
    omega

theorem toInt_of_le {n : ℕ} (hn : n ≤ INT_MAX) : toInt n = n := if_pos hn

theorem toInt_of_lt {n : ℕ} (hn : INT_MAX < n) (hlt : n < UINT_RANGE) : toInt n < 0 := by
  have hrange : UINT_RANGE = 2 ^ 32 := rfl
  rw [toInt, if_neg (Nat.not_le.mpr hn)]
  omega

theorem toUInt_natCast {n : ℕ} (hn : n < UINT_RANGE) : toUInt n = n := by
  rw [toUInt]
  have : ((n : ℤ) % UINT_RANGE) = n := by
    refine Int.emod_eq_of_lt (Int.natCast_nonneg n) ?_
    exact_mod_cast hn
  rw [this, Int.toNat_natCast]

theorem Sized.fastSize_eq (h : Sized fb maxlen) : fastSize fb = 2 ^ 14 := by
  rw [fastSize, h.fastgrowsize_eq]
  rfl

theorem Sized.slowSize_eq (h : Sized fb maxlen) : slowSize fb = 2 ^ 10 := by
  rw [slowSize, h.slowgrowsize_eq]
  rfl

theorem Sized.with_len (h : Sized fb maxlen) (hcap : maxlen ≠ 0 → len ≤ maxlen + 1)
    (hlt : len < UINT_RANGE) (data : Storage UInt8) (used skip : ℕ) :
    Sized { fb with data := data, len := len, used := used, skip := skip } maxlen where
  maxlen_eq := h.maxlen_eq
  minlen_eq := h.minlen_eq
  fastgrowsize_eq := h.fastgrowsize_eq
  slowgrowsize_eq := h.slowgrowsize_eq
  maxlen_lt := h.maxlen_lt
  capped := hcap
  len_lt := hlt

/-! ## The lengths that are tried -/

theorem nextLen_bounds (h : Sized fb maxlen) (hn : newlen ≤ 2 ^ 31 + 2 ^ 11)
    (hlen : len < newlen) : len < nextLen fb len ∧ nextLen fb len < UINT_RANGE := by
  have hrange : UINT_RANGE = 2 ^ 32 := rfl
  have hmin : FBUF_MINLEN = 128 := rfl
  rw [nextLen, h.fastSize_eq, h.slowSize_eq, h.minlen_eq]
  split
  · rw [if_pos (by decide)]
    omega
  split
  · omega
  · rw [uadd_of_lt (by omega)]
    omega

theorem growLen_spec (h : Sized fb maxlen) (hn : newlen ≤ 2 ^ 31 + 2 ^ 11) :
    ∀ (fuel len : ℕ), len < UINT_RANGE → newlen - len < fuel →
      ∃ len', growLen fb newlen fuel len = some len' ∧ newlen ≤ len' ∧ len' < UINT_RANGE := by
  intro fuel
  induction fuel with
  | zero =>
      intro len _ hfuel
      exact absurd hfuel (Nat.not_lt_zero _)
  | succ fuel ih =>
      intro len hlen hfuel
      rw [growLen]
      by_cases hlt : len < newlen
      · obtain ⟨hgrow, hlt'⟩ := nextLen_bounds h hn hlt
        rw [if_pos hlt]
        exact ih (nextLen fb len) hlt' (by omega)
      · rw [if_neg hlt]
        exact ⟨len, rfl, Nat.not_lt.mp hlt, hlen⟩

theorem shrinkLen_spec (h : Sized fb maxlen)
    (hused : fb.used + 1 < UINT_RANGE) :
    ∀ (fuel len : ℕ), len < fuel → len < UINT_RANGE → fb.used + 1 ≤ len →
      ∃ len', shrinkLen fb fuel len = some len' ∧ fb.used + 1 ≤ len' ∧ len' ≤ len := by
  intro fuel
  induction fuel with
  | zero =>
      intro len hfuel _ _
      exact absurd hfuel (Nat.not_lt_zero _)
  | succ fuel ih =>
      intro len hfuel hlt hlen
      rw [shrinkLen, h.minlen_eq, h.fastSize_eq, h.slowSize_eq, uadd_of_lt hused]
      have hmin : FBUF_MINLEN = 128 := rfl
      by_cases hbreak : len ≤ FBUF_MINLEN
      · rw [if_pos hbreak]
        exact ⟨len, rfl, hlen, le_rfl⟩
      rw [if_neg hbreak]
      have hnext : (if len ≤ 2 ^ 14 then len / 2 else usub len (2 ^ 10)) < len := by
        split
        · omega
        · rw [usub_of_le (by omega) hlt]
          omega
      generalize (if len ≤ 2 ^ 14 then len / 2 else usub len (2 ^ 10)) = next at *
      by_cases hfit : fb.used + 1 ≤ next
      · obtain ⟨len', hrun, hle, hle'⟩ := ih next (by omega) (by omega) hfit
        dsimp only
        rw [if_pos hfit]
        exact ⟨len', hrun, hle, by omega⟩
      · dsimp only
        rw [if_neg hfit]
        exact ⟨len, rfl, hlen, le_rfl⟩

/-! ## Moving the content -/

/-- Copying the content and the byte behind it to the start of the storage. -/
theorem moveDown_spec (h : Placed fb s pre (c :: post)) (hlen : fb.len < UINT_RANGE) :
    ∃ post', peek fb.data fb.skip (uadd fb.used 1) = some (s.map some ++ [c]) ∧
      poke fb.data 0 (s.map some ++ [c]) = some (some (s.map some ++ c :: post')) ∧
      post'.length = pre.length + post.length := by
  have hl := h.len
  rw [List.length_cons] at hl
  have hadd : uadd fb.used 1 = (s.map some ++ [c]).length := by
    rw [uadd_of_lt (by rw [h.used]; omega), h.used, List.length_append, List.length_map,
      List.length_singleton]
  have hsplit : fb.data = some (pre ++ (s.map some ++ [c]) ++ post) := by
    rw [h.data]
    simp
  have hroom : (s.map some ++ [c]).length ≤ (pre ++ (s.map some ++ [c]) ++ post).length := by
    simp
    omega
  have hpoke := poke_mid (a := []) hroom
  refine ⟨(pre ++ (s.map some ++ [c]) ++ post).drop (s.map some ++ [c]).length, ?_, ?_, ?_⟩
  · rw [hsplit, h.skip]
    exact peek_mid hadd
  · rw [hsplit]
    simpa using hpoke
  · simp
    omega

theorem compact_spec (h : Placed fb s pre (c :: post)) (hlen : fb.len < UINT_RANGE) :
    ∃ post', compact fb = some { fb with
        data := some (s.map some ++ post'), skip := 0 } ∧
      post'.length = pre.length + (post.length + 1) ∧
      (c = some 0 → ∃ rest, post' = some 0 :: rest) := by
  by_cases hs : s.length = 0
  · obtain rfl := List.eq_nil_of_length_eq_zero hs
    have hdata : fb.data = some ([] ++ (pre ++ c :: post)) := by
      rw [h.data, List.map_nil, List.append_nil, List.nil_append]
    have hused : ¬ fb.used ≠ 0 := fun hne => hne (h.used.trans hs)
    have hpoke : poke fb.data 0 [some 0] =
        some (some ([] ++ [some 0] ++ (pre ++ c :: post).drop 1)) := by
      rw [hdata]
      refine poke_mid ?_
      simp
      omega
    refine ⟨some 0 :: (pre ++ c :: post).drop 1, ?_, ?_, fun _ => ⟨_, rfl⟩⟩
    · rw [compact, if_neg hused, hpoke]
      rfl
    · rw [List.length_cons, List.length_drop, List.length_append, List.length_cons]
      omega
  · have hused : fb.used ≠ 0 := fun he => hs (h.used.symm.trans he)
    obtain ⟨post', hpeek, hpoke, hcount⟩ := moveDown_spec h hlen
    refine ⟨c :: post', ?_, ?_, ?_⟩
    · rw [compact, if_pos hused, hpeek]
      simp only [Option.bind_eq_bind, Option.bind_some, hpoke]
    · rw [List.length_cons, hcount]
      omega
    · rintro rfl
      exact ⟨_, rfl⟩

/-- A storage of another length that keeps the content. -/
theorem reallocate_spec (h : Placed fb s pre post) (hlen : s.length < len)
    (hmore : fb.len ≤ len) :
    ∃ fb' pre' c post', reallocate (fun _ => true) fb len = some (fb', len) ∧
      Placed fb' s pre' (c :: post') ∧ fb'.len = len ∧
      s.length + (post'.length + 1) = len ∧
      ∃ data skip, fb' = { fb with data := data, len := len, skip := skip } := by
  have hl := h.len
  by_cases hskip : fb.skip ≠ 0
  · have hpeek : peek fb.data fb.skip fb.used = some (s.map some) := by
      rw [h.data, h.skip]
      exact peek_mid (by rw [h.used, List.length_map])
    have hpoke : poke (resize none len) 0 (s.map some) =
        some (some (s.map some ++ List.replicate (len - s.length) none)) := by
      have hroom : (s.map some).length ≤ (List.replicate len (none : Option UInt8)).length := by
        rw [List.length_map, List.length_replicate]
        exact hlen.le
      have hmid := poke_mid (a := []) hroom
      rw [List.nil_append, List.nil_append, List.drop_replicate, List.length_map] at hmid
      rw [resize_none]
      exact hmid
    obtain ⟨k, hk⟩ : ∃ k, len - s.length = k + 1 := ⟨len - s.length - 1, by omega⟩
    rw [hk, List.replicate_succ] at hpoke
    refine ⟨{ fb with
        data := some (s.map some ++ none :: List.replicate k none)
        len := len
        skip := 0 }, [], none, List.replicate k none, ?_, ⟨rfl, rfl, h.used, ?_⟩, rfl, ?_,
      some (s.map some ++ none :: List.replicate k none), 0, rfl⟩
    · rw [reallocate, if_neg (by decide), if_pos hskip, hpeek]
      simp only [Option.bind_eq_bind, Option.bind_some, hpoke]
    · rw [List.length_nil, List.length_cons, List.length_replicate]
      show len = _
      omega
    · rw [List.length_replicate]
      omega
  · have hpre : pre = [] := by
      refine List.eq_nil_of_length_eq_zero ?_
      rw [← h.skip]
      exact not_not.mp hskip
    subst hpre
    have hdata : fb.data = some (s.map some ++ post) := h.data
    have hnone : ¬ (fb.data.isNone = true) := by
      rw [hdata]
      exact Bool.false_ne_true
    have hblock : (s.map some ++ post).length = fb.len := by
      rw [List.length_append, List.length_map, hl, List.length_nil, Nat.zero_add]
    have hresize : resize fb.data len =
        some (s.map some ++ (post ++ List.replicate (len - fb.len) none)) := by
      rw [hdata, resize_of_le (by omega), hblock, List.append_assoc]
    obtain ⟨c, post', hpost⟩ :
        ∃ c post', post ++ List.replicate (len - fb.len) none = c :: post' := by
      refine List.exists_cons_of_length_pos ?_
      rw [List.length_append, List.length_replicate]
      rw [List.length_nil] at hl
      omega
    have hcount := congrArg List.length hpost
    rw [List.length_append, List.length_replicate, List.length_cons] at hcount
    rw [List.length_nil] at hl
    rw [hpost] at hresize
    refine ⟨{ fb with data := resize fb.data len, len := len }, [], c, post', ?_,
      ⟨hresize, h.skip, h.used, ?_⟩, rfl, by omega, resize fb.data len, fb.skip, rfl⟩
    · rw [reallocate, if_neg (by decide), if_neg hskip, if_neg hnone]
    · rw [List.length_nil, List.length_cons]
      show len = _
      omega

/-! ## Extending -/

/-- The length that `fbuf_extend` reallocates to. -/
theorem cappedLen_spec (h : Sized fb maxlen) (hn : newlen + 1 ≤ 2 ^ 31 + 2 ^ 11)
    (hfit : ¬ Exceeds maxlen newlen) (hmore : fb.len < newlen + 1) :
    ∃ len, growLen fb (newlen + 1) UINT_RANGE fb.len = some len ∧
      newlen + 1 ≤ (if fb.maxlen ≠ 0 ∧ fb.maxlen < len then uadd fb.maxlen 1 else len) ∧
      (if fb.maxlen ≠ 0 ∧ fb.maxlen < len then uadd fb.maxlen 1 else len) < UINT_RANGE ∧
      (maxlen ≠ 0 →
        (if fb.maxlen ≠ 0 ∧ fb.maxlen < len then uadd fb.maxlen 1 else len) ≤ maxlen + 1) := by
  have hrange : UINT_RANGE = 2 ^ 32 := rfl
  have hmax := h.maxlen_lt
  obtain ⟨len, hgrow, hle, hlt⟩ := growLen_spec h hn UINT_RANGE fb.len h.len_lt (by omega)
  refine ⟨len, hgrow, ?_⟩
  rw [h.maxlen_eq, uadd_of_lt hmax]
  by_cases hcap : maxlen ≠ 0 ∧ maxlen < len
  · rw [if_pos hcap]
    have hroom : newlen ≤ maxlen := Nat.not_lt.mp fun hlt => hfit ⟨hcap.1, hlt⟩
    exact ⟨by omega, hmax, fun _ => le_rfl⟩
  · rw [if_neg hcap]
    refine ⟨hle, hlt, fun hne => ?_⟩
    have hlen : len ≤ maxlen := Nat.not_lt.mp fun hlt => hcap ⟨hne, hlt⟩
    omega

/-- Beyond the limit nothing changes. -/
theorem fbufExtend_exceeds (alloc : ℕ → Bool) (h : Sized fb maxlen)
    (hskip : fb.skip ≤ fb.len) (hn : newlen + 1 ≤ 2 ^ 31 + 2 ^ 11)
    (hover : Exceeds maxlen newlen) : fbufExtend alloc fb newlen = some (fb, 0) := by
  have hrange : UINT_RANGE = 2 ^ 32 := rfl
  obtain ⟨hne, hlt⟩ := hover
  have hcap := h.capped hne
  have hlen := h.len_lt
  have hmax := h.maxlen_lt
  have hspace : ¬ newlen + 1 ≤ fb.len - fb.skip := by omega
  have hwhole : ¬ (fb.skip ≠ 0 ∧ newlen + 1 ≤ fb.len) := by omega
  have hguard : maxlen ≠ FBUF_MAXLEN_NONE ∧ maxlen + 1 < newlen + 1 := ⟨hne, by omega⟩
  rw [fbufExtend, uadd_of_lt (by omega : newlen + 1 < UINT_RANGE), usub_of_le hskip hlen]
  dsimp only
  rw [if_neg hspace, if_neg hwhole, h.maxlen_eq, uadd_of_lt hmax, if_pos hguard]

/-- Within the limit a buffer with storage gets the room. -/
theorem fbufExtend_placed (h : Sized fb maxlen) (hp : Placed fb s pre (c :: post))
    (hn : newlen + 1 ≤ 2 ^ 31 + 2 ^ 11) (hfit : ¬ Exceeds maxlen newlen) :
    ∃ fb' pre' c' post', fbufExtend (fun _ => true) fb newlen = some (fb', fb'.len) ∧
      0 < fb'.len ∧ Placed fb' s pre' (c' :: post') ∧ Sized fb' maxlen ∧
      newlen + 1 ≤ s.length + (post'.length + 1) := by
  have hrange : UINT_RANGE = 2 ^ 32 := rfl
  have hl := hp.len
  have hs := hp.skip
  have hlen := h.len_lt
  rw [List.length_cons] at hl
  rw [fbufExtend, uadd_of_lt (by omega : newlen + 1 < UINT_RANGE),
    usub_of_le (by omega) hlen]
  dsimp only
  by_cases hspace : newlen + 1 ≤ fb.len - fb.skip
  · rw [if_pos hspace]
    exact ⟨fb, pre, c, post, rfl, by omega, hp, h, by omega⟩
  rw [if_neg hspace]
  by_cases hwhole : fb.skip ≠ 0 ∧ newlen + 1 ≤ fb.len
  · obtain ⟨post', hcompact, hlength, -⟩ := compact_spec hp hlen
    obtain ⟨c', rest, rfl⟩ : ∃ c' rest, post' = c' :: rest :=
      List.exists_cons_of_length_pos (by omega)
    rw [List.length_cons] at hlength
    rw [if_pos hwhole, hcompact]
    refine ⟨{ fb with data := some (s.map some ++ c' :: rest), skip := 0 }, [], c', rest, rfl,
      ?_, ⟨rfl, rfl, hp.used, ?_⟩, h.with_len h.capped hlen _ _ _, ?_⟩
    · show 0 < fb.len
      omega
    · rw [List.length_nil, List.length_cons]
      show fb.len = _
      omega
    · omega
  rw [if_neg hwhole]
  have hmore : fb.len < newlen + 1 := by
    by_cases hzero : fb.skip = 0
    · omega
    · exact Nat.not_le.mp fun hle => hwhole ⟨hzero, hle⟩
  have hguard : ¬ (fb.maxlen ≠ FBUF_MAXLEN_NONE ∧ uadd fb.maxlen 1 < newlen + 1) := by
    rw [h.maxlen_eq, uadd_of_lt h.maxlen_lt]
    rintro ⟨hne, hlt⟩
    exact hfit ⟨hne, by omega⟩
  obtain ⟨len, hgrow, hle, hlt, hcap⟩ := cappedLen_spec h hn hfit hmore
  rw [if_neg hguard, hgrow]
  simp only [Option.bind_eq_bind, Option.bind_some]
  generalize (if fb.maxlen ≠ 0 ∧ fb.maxlen < len then uadd fb.maxlen 1 else len) = len' at *
  have hne : ¬ len' = 0 := by omega
  obtain ⟨fb', pre', c', post', hrun, hp', hlen', hroom, data, skip, rfl⟩ :=
    reallocate_spec hp (by omega : s.length < len') (by omega)
  rw [if_neg hne, hrun]
  refine ⟨_, pre', c', post', rfl, ?_, hp', h.with_len hcap hlt _ _ _, by omega⟩
  show 0 < len'
  omega

/-- Within the limit a buffer without storage gets one. -/
theorem fbufExtend_noStorage (h : Sized fb maxlen) (hno : NoStorage fb)
    (hn : newlen + 1 ≤ 2 ^ 31 + 2 ^ 11) (hfit : ¬ Exceeds maxlen newlen) :
    ∃ fb' c' post', fbufExtend (fun _ => true) fb newlen = some (fb', fb'.len) ∧
      0 < fb'.len ∧ Placed fb' [] [] (c' :: post') ∧ Sized fb' maxlen ∧
      newlen + 1 ≤ post'.length + 1 := by
  have hrange : UINT_RANGE = 2 ^ 32 := rfl
  obtain ⟨hdata, hlen, hused, hskip⟩ := hno
  have hspace : ¬ newlen + 1 ≤ fb.len - fb.skip := by omega
  have hwhole : ¬ (fb.skip ≠ 0 ∧ newlen + 1 ≤ fb.len) := fun hne => hne.1 hskip
  have hguard : ¬ (fb.maxlen ≠ FBUF_MAXLEN_NONE ∧ uadd fb.maxlen 1 < newlen + 1) := by
    rw [h.maxlen_eq, uadd_of_lt h.maxlen_lt]
    rintro ⟨hne, hlt⟩
    exact hfit ⟨hne, by omega⟩
  obtain ⟨len, hgrow, hle, hlt, hcap⟩ := cappedLen_spec h hn hfit (by omega)
  rw [fbufExtend, uadd_of_lt (by omega : newlen + 1 < UINT_RANGE),
    usub_of_le (by omega) h.len_lt]
  dsimp only
  rw [if_neg hspace, if_neg hwhole, if_neg hguard, hgrow]
  simp only [Option.bind_eq_bind, Option.bind_some]
  generalize (if fb.maxlen ≠ 0 ∧ fb.maxlen < len then uadd fb.maxlen 1 else len) = len' at *
  have hne : ¬ len' = 0 := by omega
  obtain ⟨k, rfl⟩ : ∃ k, len' = k + 1 := ⟨len' - 1, by omega⟩
  have hnew : poke (resize none (k + 1)) 0 [some (0 : UInt8)] =
      some (some (some 0 :: List.replicate k none)) := by
    rw [resize_none, List.replicate_succ]
    exact poke_mid (a := []) (by simp)
  have hskip' : ¬ fb.skip ≠ 0 := fun hne => hne hskip
  have hnone : fb.data.isNone = true := by
    rw [hdata]
    rfl
  rw [if_neg hne, reallocate, if_neg (by decide), if_neg hskip', if_pos hnone, hnew]
  refine ⟨{ fb with data := some (some 0 :: List.replicate k none), len := k + 1 }, some 0,
    List.replicate k none, rfl, Nat.succ_pos k, ⟨rfl, hskip, hused, ?_⟩,
    h.with_len hcap hlt _ _ _, ?_⟩
  · simp
  · rw [List.length_replicate]
    exact hle

end FBuf
end LibHL
