import LibHL.FBuf.Layout
import LibHL.Support.Loop

/-!
# Extending a flat buffer

`fbuf_extend` stores every length it tries in the buffer before it asks for memory, and counts
in `unsigned int`s that may go round.  So a failed allocation leaves a length without storage,
and the schedule of lengths need not come to an end.
-/

namespace LibHL
namespace FBuf

open Storage Circular Loop

variable {alloc : ℕ → Bool} {fb fb' : FBuf} {newlen N size : ℕ} {cs : List (Option UInt8)}

/-! ## Buffers whose content lies in their storage -/

/-- The fields are `unsigned int`s. -/
structure Ranges (fb : FBuf) : Prop where
  len_lt : fb.len < UINT_RANGE
  maxlen_lt : fb.maxlen < UINT_RANGE
  minlen_lt : fb.minlen < UINT_RANGE
  fastgrowsize_lt : fb.fastgrowsize < UINT_RANGE
  slowgrowsize_lt : fb.slowgrowsize < UINT_RANGE

/-- The cells of the storage. -/
def cells (fb : FBuf) : List (Option UInt8) := fb.data.getD []

/-- The content. -/
def contents (fb : FBuf) : List (Option UInt8) := ((cells fb).drop fb.skip).take fb.used

/-- The byte behind the content. -/
def behind (fb : FBuf) : Option (Option UInt8) := (cells fb)[fb.skip + fb.used]?

/-- The content and the byte behind it lie in the storage, which may be shorter than the
length. -/
structure Backed (fb : FBuf) : Prop where
  ranges : Ranges fb
  cells_le : (cells fb).length ≤ fb.len
  inside : fb.data.isSome = true → fb.skip + fb.used < (cells fb).length
  empty : fb.data = none → fb.used = 0 ∧ fb.skip = 0

/-- The length is that of the storage. -/
structure Sound (fb : FBuf) : Prop extends Backed fb where
  whole : (cells fb).length = fb.len

/-- If there is storage, the byte behind the content is zero and within the length. -/
def Terminated (fb : FBuf) : Prop :=
  fb.data.isSome = true → fb.skip + fb.used < fb.len ∧ behind fb = some (some 0)

/-- The same content in another storage. -/
structure SameContent (fb fb' : FBuf) : Prop where
  used : fb'.used = fb.used
  contents : contents fb' = contents fb

theorem cells_some (h : fb.data = some cs) : cells fb = cs := by
  rw [cells, h, Option.getD_some]

theorem Backed.covers (h : Backed fb) (hdata : fb.data.isSome = true) :
    fb.skip + fb.used < fb.len := (h.inside hdata).trans_le h.cells_le

theorem Backed.cells_lt (h : Backed fb) : (cells fb).length < UINT_RANGE :=
  h.cells_le.trans_lt h.ranges.len_lt

/-- A content with a byte behind it has storage. -/
theorem backed_of_inside (hranges : Ranges fb) (hle : (cells fb).length ≤ fb.len)
    (hin : fb.skip + fb.used < (cells fb).length) : Backed fb where
  ranges := hranges
  cells_le := hle
  inside := fun _ => hin
  empty := by
    intro hdata
    rw [cells, hdata] at hin
    exact absurd hin (Nat.not_lt_zero _)

theorem sound_of_inside (hranges : Ranges fb) (hwhole : (cells fb).length = fb.len)
    (hin : fb.skip + fb.used < (cells fb).length) : Sound fb :=
  ⟨backed_of_inside hranges hwhole.le hin, hwhole⟩

theorem Backed.storage (h : Backed fb) :
    (fb.data = none ∧ fb.used = 0 ∧ fb.skip = 0) ∨
      ∃ cs, fb.data = some cs ∧ cells fb = cs ∧ fb.skip + fb.used < cs.length ∧
        cs.length < UINT_RANGE := by
  cases hdata : fb.data with
  | none => exact Or.inl ⟨rfl, h.empty hdata⟩
  | some cs =>
      have hcells := cells_some hdata
      have hinside := h.inside (by rw [hdata]; rfl)
      have hlt := h.cells_lt
      rw [hcells] at hinside hlt
      exact Or.inr ⟨cs, rfl, hcells, hinside, hlt⟩

theorem Backed.le (h : Backed fb) : fb.skip + fb.used ≤ fb.len := by
  rcases h.storage with ⟨-, hused, hskip⟩ | ⟨cs, hdata, -⟩
  · omega
  · have := h.covers (by rw [hdata]; rfl)
    omega

theorem Backed.isSome_of_used (h : Backed fb) (hused : fb.used ≠ 0) : fb.data.isSome = true := by
  rcases h.storage with ⟨-, hzero, -⟩ | ⟨cs, hdata, -⟩
  · exact absurd hzero hused
  · rw [hdata]
    rfl

theorem Backed.used_lt_len (h : Backed fb) (hused : fb.used ≠ 0) : fb.used < fb.len := by
  have := h.covers (h.isSome_of_used hused)
  omega

theorem Backed.used_lt (h : Backed fb) : fb.skip + fb.used + 1 < UINT_RANGE := by
  have hrange : UINT_RANGE = 2 ^ 32 := rfl
  rcases h.storage with ⟨-, hused, hskip⟩ | ⟨cs, -, -, hinside, hlt⟩
  · omega
  · omega

theorem Backed.length_contents (h : Backed fb) : (contents fb).length = fb.used := by
  rw [contents]
  rcases h.storage with ⟨hdata, hused, -⟩ | ⟨cs, -, hcells, hinside, -⟩
  · rw [hused, List.take_zero, List.length_nil]
  · rw [hcells, List.length_take, List.length_drop]
    omega

theorem Backed.isSome_peek (h : Backed fb) : (peek fb.data fb.skip fb.used).isSome = true := by
  rcases h.storage with ⟨-, hused, -⟩ | ⟨cs, hdata, -, hinside, -⟩
  · rw [peek, if_pos hused]
    rfl
  · rw [hdata, peek_of_le (by omega)]
    rfl

theorem sound_create {maxlen : ℕ} (hmax : maxlen < UINT_RANGE) : Sound (fbufCreate maxlen) where
  ranges := ⟨Nat.two_pow_pos 32, hmax, (by decide : FBUF_MINLEN < UINT_RANGE),
    (by decide : FBUF_FASTGROWSIZE < UINT_RANGE), (by decide : FBUF_SLOWGROWSIZE < UINT_RANGE)⟩
  cells_le := le_rfl
  inside := fun h => absurd h Bool.false_ne_true
  empty := fun _ => ⟨rfl, rfl⟩
  whole := rfl

/-! ## Moving the content to the start -/

theorem compact_backed (h : Backed fb) (hdata : fb.data = some cs) :
    ∃ cs', compact fb = some { fb with data := some cs', skip := 0 } ∧
      cs'.length = cs.length ∧ cs'.take fb.used = contents fb ∧
      cs'[fb.used]? = (if fb.used = 0 then some (some 0) else behind fb) ∧
      ∀ p, fb.used < p → cs'[p]? = (cells fb)[p]? := by
  have hcells := cells_some hdata
  have hinside := h.inside (by rw [hdata]; rfl)
  rw [hcells] at hinside
  by_cases hused : fb.used = 0
  · have hroom : 0 + [some (0 : UInt8)].length ≤ cs.length := by
      rw [List.length_singleton]
      omega
    refine ⟨overwrite cs 0 [some 0], ?_, length_overwrite hroom, ?_, ?_, ?_⟩
    · rw [compact, if_neg (not_not.mpr hused), hdata, poke_of_le hroom]
      rfl
    · rw [contents, hused, List.take_zero, List.take_zero]
    · rw [hused, if_pos rfl, getElem?_overwrite hroom]
      rfl
    · intro p hp
      rw [getElem?_overwrite hroom, if_neg (by rw [List.length_singleton]; omega), hcells]
  · have hsum : uadd fb.used 1 = fb.used + 1 := uadd_of_lt (by have := h.used_lt; omega)
    have hlength : ((cs.drop fb.skip).take (fb.used + 1)).length = fb.used + 1 := by
      rw [List.length_take, List.length_drop]
      omega
    have hroom : 0 + ((cs.drop fb.skip).take (fb.used + 1)).length ≤ cs.length := by
      omega
    refine ⟨overwrite cs 0 ((cs.drop fb.skip).take (fb.used + 1)), ?_, length_overwrite hroom,
      ?_, ?_, ?_⟩
    · rw [compact, if_pos hused, hsum, hdata, peek_of_le (by omega)]
      simp only [Option.bind_eq_bind, Option.bind_some, poke_of_le hroom]
    · have hfront := take_overwrite_zero cs ((cs.drop fb.skip).take (fb.used + 1))
      rw [hlength] at hfront
      have hshort : (overwrite cs 0 ((cs.drop fb.skip).take (fb.used + 1))).take fb.used =
          ((overwrite cs 0 ((cs.drop fb.skip).take (fb.used + 1))).take (fb.used + 1)).take
            fb.used := by
        rw [List.take_take, Nat.min_eq_left (Nat.le_succ _)]
      rw [hshort, hfront, List.take_take, Nat.min_eq_left (Nat.le_succ _), contents, hcells]
    · rw [if_neg hused, getElem?_overwrite hroom, hlength, if_pos (by omega), Nat.sub_zero,
        List.getElem?_take_of_lt (Nat.lt_succ_self _), List.getElem?_drop, behind, hcells]
    · intro p hp
      rw [getElem?_overwrite hroom, hlength, if_neg (by omega), hcells]

/-! ## Writing behind the content -/

/-- What is written behind the content continues it. -/
theorem poke_behind {xs : List (Option UInt8)} (hx : xs ≠ [])
    (hfit : fb.skip + fb.used + xs.length ≤ (cells fb).length) :
    ∃ cs, poke fb.data (fb.skip + fb.used) xs = some (some cs) ∧
      cs.length = (cells fb).length ∧
      (∀ j ≤ xs.length, (cs.drop fb.skip).take (fb.used + j) = contents fb ++ xs.take j) ∧
      ∀ j < xs.length, cs[fb.skip + fb.used + j]? = xs[j]? := by
  have hpos := List.length_pos_iff.mpr hx
  cases hdata : fb.data with
  | none =>
      have hnone : (cells fb).length = 0 := by
        rw [cells, hdata]
        rfl
      omega
  | some cs =>
      have hcells := cells_some hdata
      rw [hcells] at hfit ⊢
      refine ⟨overwrite cs (fb.skip + fb.used) xs, poke_of_le hfit, length_overwrite hfit, ?_, ?_⟩
      · intro j hj
        rw [take_drop_overwrite hfit hj, contents, hcells]
      · intro j hj
        rw [getElem?_overwrite hfit, if_pos (by omega), Nat.add_sub_cancel_left]

theorem terminate_eq (hlt : (cells fb).length < UINT_RANGE)
    (hin : fb.skip + fb.used < (cells fb).length) :
    ∃ cs, terminate fb = some { fb with data := some cs } ∧ cs.length = (cells fb).length ∧
      contents { fb with data := some cs } = contents fb ∧
      behind { fb with data := some cs } = some (some 0) := by
  obtain ⟨cs, hpoke, hlen, htake, hget⟩ := poke_behind (List.cons_ne_nil (some 0) []) hin
  refine ⟨cs, ?_, hlen, ?_, ?_⟩
  · rw [terminate, uadd_of_lt (hin.trans hlt), hpoke]
    rfl
  · refine (htake 0 (Nat.zero_le _)).trans ?_
    rw [List.take_zero, List.append_nil]
  · exact hget 0 Nat.zero_lt_one

/-! ## Getting another storage -/

theorem reallocate_fails (h : alloc size = false) :
    reallocate alloc fb size = some ({ fb with len := size }, 0) := if_pos h

/-- What `reallocate` does to the storage. -/
theorem reallocate_backed (h : Backed fb) (halloc : alloc size = true) (hused : fb.used < size) :
    ∃ cs', reallocate alloc fb size =
        some ({ fb with data := some cs', len := size, skip := 0 }, size) ∧
      cs'.length = size ∧ cs'.take fb.used = contents fb ∧
      cs'[fb.used]? =
        (if fb.skip ≠ 0 then some none else if fb.data = none then some (some 0)
        else behind fb) ∧
      ∀ p b, fb.used < p → cs'[p]? = some (some b) → (cells fb)[p]? = some (some b) := by
  have hmemory : ¬ alloc size = false := by
    rw [halloc]
    exact Bool.true_eq_false_eq_False
  rw [reallocate, if_neg hmemory]
  have hnew : (List.replicate size (none : Option UInt8)).length = size := List.length_replicate
  have hfresh : ∀ (p : ℕ) (b : UInt8),
      (List.replicate size (none : Option UInt8))[p]? ≠ some (some b) := by
    intro p b hcell
    rw [List.getElem?_replicate] at hcell
    split at hcell
    · cases hcell
    · cases hcell
  rcases h.storage with ⟨hdata, hzero, hskip⟩ | ⟨cs, hdata, hcells, hinside, -⟩
  · have hroom : 0 + [some (0 : UInt8)].length ≤
        (List.replicate size (none : Option UInt8)).length := by
      rw [List.length_singleton, hnew]
      omega
    refine ⟨overwrite (List.replicate size none) 0 [some 0], ?_,
      (length_overwrite hroom).trans hnew, ?_, ?_, ?_⟩
    · rw [if_neg (not_not.mpr hskip), hdata, if_pos Option.isNone_none, resize_none,
        poke_of_le hroom, ← hskip]
      rfl
    · rw [contents, hzero, List.take_zero, List.take_zero]
    · rw [if_neg (not_not.mpr hskip), if_pos hdata, hzero, getElem?_overwrite hroom]
      rfl
    · intro p b hp hcell
      rw [getElem?_overwrite hroom, if_neg (by rw [List.length_singleton]; omega)] at hcell
      exact absurd hcell (hfresh p b)
  have hsome : ¬ fb.data = none := by
    rw [hdata]
    exact Option.some_ne_none cs
  by_cases hskip : fb.skip = 0
  · have hlarge : fb.used < (cells fb).length := by
      rw [hcells]
      omega
    refine ⟨(resize (some cs) size).getD [], ?_, length_resize _ _, ?_, ?_, ?_⟩
    · have hnone : ¬ fb.data.isNone = true := fun hno => hsome (Option.isNone_iff_eq_none.mp hno)
      rw [if_neg (not_not.mpr hskip), if_neg hnone, hdata, ← hskip]
      rfl
    · rw [take_resize hused.le (by omega), contents, hcells, hskip, List.drop_zero]
    · rw [if_neg (not_not.mpr hskip), if_neg hsome, getElem?_resize hused (by omega), behind,
        hcells, hskip, Nat.zero_add]
    · intro p b _ hcell
      rw [hcells]
      exact getElem?_of_resize hcell
  · have hlength : ((cs.drop fb.skip).take fb.used).length = fb.used := by
      rw [List.length_take, List.length_drop]
      omega
    have hroom : 0 + ((cs.drop fb.skip).take fb.used).length ≤
        (List.replicate size (none : Option UInt8)).length := by
      rw [hnew]
      omega
    refine ⟨overwrite (List.replicate size none) 0 ((cs.drop fb.skip).take fb.used), ?_,
      (length_overwrite hroom).trans hnew, ?_, ?_, ?_⟩
    · rw [if_pos hskip, hdata, peek_of_le (by omega)]
      simp only [Option.bind_eq_bind, Option.bind_some, resize_none, poke_of_le hroom]
    · have hfront := take_overwrite_zero (List.replicate size (none : Option UInt8))
        ((cs.drop fb.skip).take fb.used)
      rw [hlength] at hfront
      rw [hfront, contents, hcells]
    · rw [if_pos hskip, getElem?_overwrite hroom, hlength, if_neg (by omega),
        List.getElem?_replicate, if_pos hused]
    · intro p b hp hcell
      rw [getElem?_overwrite hroom, hlength, if_neg (by omega)] at hcell
      exact absurd hcell (hfresh p b)

/-! ## The lengths that are tried -/

/-- The guard of `fbuf_extend` against the limit. -/
def Refuses (fb : FBuf) (N : ℕ) : Prop := fb.maxlen ≠ FBUF_MAXLEN_NONE ∧ uadd fb.maxlen 1 < N

instance decidableRefuses (fb : FBuf) (N : ℕ) : Decidable (Refuses fb N) :=
  inferInstanceAs (Decidable (fb.maxlen ≠ FBUF_MAXLEN_NONE ∧ uadd fb.maxlen 1 < N))

/-- A length that does not exceed the limit, with the terminator. -/
def capped (fb : FBuf) (len : ℕ) : ℕ :=
  if fb.maxlen ≠ 0 ∧ fb.maxlen < len then fb.maxlen + 1 else len

/-- The schedule of lengths comes to one of at least `N`. -/
def GrowsTo (fb : FBuf) (N : ℕ) : Prop := ∃ k, N ≤ (nextLen fb)^[k] fb.len

/-- The first such length, within the limit, is `size`. -/
def Requests (fb : FBuf) (N size : ℕ) : Prop :=
  ∃ k, StopsAfter (fun len => N ≤ len) (nextLen fb) fb.len k ∧
    capped fb ((nextLen fb)^[k] fb.len) = size

theorem Ranges.fastSize_lt (h : Ranges fb) : fastSize fb < UINT_RANGE := by
  rw [fastSize]
  split
  · exact h.fastgrowsize_lt
  · decide

theorem slowSize_pos (fb : FBuf) : 0 < slowSize fb := by
  rw [slowSize]
  split
  · omega
  · decide

theorem Ranges.slowSize_lt (h : Ranges fb) : slowSize fb < UINT_RANGE := by
  rw [slowSize]
  split
  · exact h.slowgrowsize_lt
  · decide

theorem Ranges.nextLen_lt (h : Ranges fb) (len : ℕ) : nextLen fb len < UINT_RANGE := by
  rw [nextLen]
  split
  · split
    · exact h.minlen_lt
    · decide
  split
  · exact h.fastSize_lt
  · exact Nat.mod_lt _ (Nat.two_pow_pos 32)

theorem growLen_eq_loop (fb : FBuf) (N : ℕ) : ∀ (fuel len : ℕ),
    growLen fb N fuel len = loop (fun len => N ≤ len) (nextLen fb) fuel len := by
  intro fuel
  induction fuel with
  | zero => exact fun _ => rfl
  | succ fuel ih =>
      intro len
      rw [growLen, loop]
      by_cases hlt : len < N
      · rw [if_pos hlt, if_neg (Nat.not_le.mpr hlt), ih]
      · rw [if_neg hlt, if_pos (Nat.not_lt.mp hlt)]

theorem growLen_eq_some_iff (h : Ranges fb) {len : ℕ} :
    growLen fb N UINT_RANGE fb.len = some len ↔
      ∃ k, StopsAfter (fun len => N ≤ len) (nextLen fb) fb.len k ∧
        (nextLen fb)^[k] fb.len = len := by
  rw [growLen_eq_loop]
  exact loop_eq_some_iff_of_lt (fun len _ => h.nextLen_lt len) h.len_lt

theorem growsTo_iff (h : Ranges fb) :
    GrowsTo fb N ↔ ∃ len, growLen fb N UINT_RANGE fb.len = some len := by
  rw [← Option.isSome_iff_exists, growLen_eq_loop]
  exact (isSome_loop_iff_of_lt (fun len _ => h.nextLen_lt len) h.len_lt).symm

theorem GrowsTo.requests (h : GrowsTo fb N) : ∃ size, Requests fb N size := by
  obtain ⟨k, hk⟩ := h
  have hstop : (fun len => N ≤ len) ((nextLen fb)^[k] fb.len) := hk
  obtain ⟨j, -, hj⟩ := exists_stopsAfter hstop
  exact ⟨_, j, hj, rfl⟩

theorem Requests.growsTo (h : Requests fb N size) : GrowsTo fb N := by
  obtain ⟨k, hk, -⟩ := h
  exact ⟨k, hk.stops⟩

theorem Requests.unique {size' : ℕ} (h : Requests fb N size) (h' : Requests fb N size') :
    size = size' := by
  obtain ⟨k, hk, rfl⟩ := h
  obtain ⟨k', hk', rfl⟩ := h'
  rw [hk.unique hk']

theorem Requests.le (h : Requests fb N size) (hranges : Ranges fb) (hfits : ¬ Refuses fb N) :
    N ≤ size ∧ size < UINT_RANGE := by
  obtain ⟨k, hk, rfl⟩ := h
  have hlt := iterate_lt (fun len _ => hranges.nextLen_lt len) hranges.len_lt k
  have hstop : N ≤ (nextLen fb)^[k] fb.len := hk.stops
  rw [capped]
  by_cases hcap : fb.maxlen ≠ 0 ∧ fb.maxlen < (nextLen fb)^[k] fb.len
  · have hadd : uadd fb.maxlen 1 = fb.maxlen + 1 := uadd_of_lt (by omega)
    rw [if_pos hcap]
    refine ⟨?_, by omega⟩
    rw [← hadd]
    exact Nat.not_lt.mp fun hlt => hfits ⟨hcap.1, hlt⟩
  · rw [if_neg hcap]
    exact ⟨hstop, hlt⟩

/-! ## The branches of `fbuf_extend` -/

section Branches

variable (hskip : fb.skip ≤ fb.len) (hranges : Ranges fb)

include hskip hranges

theorem fbufExtend_room (hroom : fb.skip + uadd newlen 1 ≤ fb.len) :
    fbufExtend alloc fb newlen = some (fb, fb.len) := by
  have hspace : uadd newlen 1 ≤ fb.len - fb.skip := by omega
  rw [fbufExtend, usub_of_le hskip hranges.len_lt]
  exact if_pos hspace

theorem fbufExtend_compact (hmore : fb.len < fb.skip + uadd newlen 1)
    (hfit : uadd newlen 1 ≤ fb.len) :
    fbufExtend alloc fb newlen = (compact fb).map fun fb => (fb, fb.len) := by
  have hspace : ¬ uadd newlen 1 ≤ fb.len - fb.skip := by omega
  have hwhole : fb.skip ≠ 0 ∧ uadd newlen 1 ≤ fb.len := by omega
  rw [fbufExtend, usub_of_le hskip hranges.len_lt]
  dsimp only
  rw [if_neg hspace, if_pos hwhole]

theorem fbufExtend_refused (hmore : fb.len < uadd newlen 1) (hover : Refuses fb (uadd newlen 1)) :
    fbufExtend alloc fb newlen = some (fb, 0) := by
  have hspace : ¬ uadd newlen 1 ≤ fb.len - fb.skip := by omega
  have hwhole : ¬ (fb.skip ≠ 0 ∧ uadd newlen 1 ≤ fb.len) := by omega
  rw [fbufExtend, usub_of_le hskip hranges.len_lt]
  dsimp only
  rw [if_neg hspace, if_neg hwhole]
  exact if_pos hover

theorem fbufExtend_requests (hmore : fb.len < uadd newlen 1)
    (hfits : ¬ Refuses fb (uadd newlen 1)) (hrequests : Requests fb (uadd newlen 1) size) :
    fbufExtend alloc fb newlen = reallocate alloc fb size := by
  have hspace : ¬ uadd newlen 1 ≤ fb.len - fb.skip := by omega
  have hwhole : ¬ (fb.skip ≠ 0 ∧ uadd newlen 1 ≤ fb.len) := by omega
  obtain ⟨hle, -⟩ := hrequests.le hranges hfits
  obtain ⟨k, hk, hcap⟩ := hrequests
  have hgrow := (growLen_eq_some_iff hranges).mpr ⟨k, hk, rfl⟩
  have hlt := iterate_lt (fun len _ => hranges.nextLen_lt len) hranges.len_lt k
  have hsize : (if fb.maxlen ≠ 0 ∧ fb.maxlen < (nextLen fb)^[k] fb.len then uadd fb.maxlen 1
      else (nextLen fb)^[k] fb.len) = size := by
    rw [← hcap, capped]
    by_cases hover : fb.maxlen ≠ 0 ∧ fb.maxlen < (nextLen fb)^[k] fb.len
    · rw [if_pos hover, if_pos hover, uadd_of_lt (by omega)]
    · rw [if_neg hover, if_neg hover]
  rw [fbufExtend, usub_of_le hskip hranges.len_lt]
  dsimp only
  rw [if_neg hspace, if_neg hwhole]
  refine (if_neg hfits).trans ?_
  rw [hgrow]
  simp only [Option.bind_eq_bind, Option.bind_some, hsize]
  exact if_neg (by omega)

theorem fbufExtend_diverges (hmore : fb.len < uadd newlen 1)
    (hfits : ¬ Refuses fb (uadd newlen 1)) (hnever : ¬ GrowsTo fb (uadd newlen 1)) :
    fbufExtend alloc fb newlen = none := by
  have hspace : ¬ uadd newlen 1 ≤ fb.len - fb.skip := by omega
  have hwhole : ¬ (fb.skip ≠ 0 ∧ uadd newlen 1 ≤ fb.len) := by omega
  have hgrow : growLen fb (uadd newlen 1) UINT_RANGE fb.len = none := by
    rw [Option.eq_none_iff_forall_ne_some]
    intro len hlen
    exact hnever ((growsTo_iff hranges).mpr ⟨len, hlen⟩)
  rw [fbufExtend, usub_of_le hskip hranges.len_lt]
  dsimp only
  rw [if_neg hspace, if_neg hwhole]
  refine (if_neg hfits).trans ?_
  rw [hgrow]
  rfl

end Branches

/-- What `fbuf_extend` leaves and returns. -/
inductive Extended (alloc : ℕ → Bool) (fb : FBuf) (N : ℕ) : FBuf → ℕ → Prop where
  | room (hroom : fb.skip + N ≤ fb.len) : Extended alloc fb N fb fb.len
  | compacted {cs : List (Option UInt8)} (hmore : fb.len < fb.skip + N) (hfit : N ≤ fb.len)
      (hlen : cs.length = (cells fb).length) (hcontents : cs.take fb.used = contents fb)
      (hbehind : cs[fb.used]? = if fb.used = 0 then some (some 0) else behind fb)
      (htail : ∀ p, fb.used < p → cs[p]? = (cells fb)[p]?) :
      Extended alloc fb N { fb with data := some cs, skip := 0 } fb.len
  | refused (hmore : fb.len < N) (hover : Refuses fb N) : Extended alloc fb N fb 0
  | failed {size : ℕ} (hmore : fb.len < N) (hfits : ¬ Refuses fb N)
      (hrequests : Requests fb N size) (halloc : alloc size = false) :
      Extended alloc fb N { fb with len := size } 0
  | reallocated {size : ℕ} {cs : List (Option UInt8)} (hmore : fb.len < N)
      (hfits : ¬ Refuses fb N) (hrequests : Requests fb N size) (halloc : alloc size = true)
      (hused : fb.used < size) (hlen : cs.length = size)
      (hcontents : cs.take fb.used = contents fb)
      (hbehind : cs[fb.used]? =
        if fb.skip ≠ 0 then some none else if fb.data = none then some (some 0)
        else behind fb)
      (htail : ∀ p b, fb.used < p → cs[p]? = some (some b) → (cells fb)[p]? = some (some b)) :
      Extended alloc fb N { fb with data := some cs, len := size, skip := 0 } size

theorem fbufExtend_cases {r : ℕ} (h : Backed fb)
    (hrun : fbufExtend alloc fb newlen = some (fb', r)) :
    Extended alloc fb (uadd newlen 1) fb' r := by
  have hskip : fb.skip ≤ fb.len := (Nat.le_add_right _ _).trans h.le
  have hranges := h.ranges
  by_cases hroom : fb.skip + uadd newlen 1 ≤ fb.len
  · rw [fbufExtend_room hskip hranges hroom] at hrun
    cases hrun
    exact .room hroom
  by_cases hfit : uadd newlen 1 ≤ fb.len
  · rw [fbufExtend_compact hskip hranges (Nat.not_le.mp hroom) hfit] at hrun
    rcases h.storage with ⟨-, -, hzero⟩ | ⟨cs, hdata, hcells, -, -⟩
    · omega
    obtain ⟨cs', hcompact, hlen, hcontents, hbehind, htail⟩ := compact_backed h hdata
    rw [hcompact] at hrun
    cases hrun
    exact .compacted (Nat.not_le.mp hroom) hfit (by rw [hlen, hcells]) hcontents hbehind htail
  have hmore : fb.len < uadd newlen 1 := Nat.not_le.mp hfit
  by_cases hover : Refuses fb (uadd newlen 1)
  · rw [fbufExtend_refused hskip hranges hmore hover] at hrun
    cases hrun
    exact .refused hmore hover
  by_cases hgrows : GrowsTo fb (uadd newlen 1)
  · obtain ⟨size, hrequests⟩ := hgrows.requests
    rw [fbufExtend_requests hskip hranges hmore hover hrequests] at hrun
    cases halloc : alloc size with
    | false =>
        rw [reallocate_fails halloc] at hrun
        cases hrun
        exact .failed hmore hover hrequests halloc
    | true =>
        have hused : fb.used < size := by
          have := (hrequests.le hranges hover).1
          have := h.le
          omega
        obtain ⟨cs', hrealloc, hlen, hcontents, hbehind, htail⟩ :=
          reallocate_backed h halloc hused
        rw [hrealloc] at hrun
        cases hrun
        exact .reallocated hmore hover hrequests halloc hused hlen hcontents hbehind htail
  · rw [fbufExtend_diverges hskip hranges hmore hover hgrows] at hrun
    cases hrun

/-- It has a result as soon as the schedule of lengths comes to an end. -/
theorem isSome_fbufExtend_iff (alloc : ℕ → Bool) (h : Backed fb) :
    (fbufExtend alloc fb newlen).isSome = true ↔
      uadd newlen 1 ≤ fb.len ∨ Refuses fb (uadd newlen 1) ∨ GrowsTo fb (uadd newlen 1) := by
  have hskip : fb.skip ≤ fb.len := (Nat.le_add_right _ _).trans h.le
  have hranges := h.ranges
  by_cases hroom : fb.skip + uadd newlen 1 ≤ fb.len
  · rw [fbufExtend_room hskip hranges hroom]
    exact iff_of_true rfl (Or.inl (by omega))
  by_cases hfit : uadd newlen 1 ≤ fb.len
  · rw [fbufExtend_compact hskip hranges (Nat.not_le.mp hroom) hfit]
    rcases h.storage with ⟨-, -, hzero⟩ | ⟨cs, hdata, -, -, -⟩
    · omega
    obtain ⟨cs', hcompact, -⟩ := compact_backed h hdata
    rw [hcompact]
    exact iff_of_true rfl (Or.inl hfit)
  have hmore : fb.len < uadd newlen 1 := Nat.not_le.mp hfit
  by_cases hover : Refuses fb (uadd newlen 1)
  · rw [fbufExtend_refused hskip hranges hmore hover]
    exact iff_of_true rfl (Or.inr (Or.inl hover))
  by_cases hgrows : GrowsTo fb (uadd newlen 1)
  · obtain ⟨size, hrequests⟩ := hgrows.requests
    rw [fbufExtend_requests hskip hranges hmore hover hrequests]
    refine iff_of_true ?_ (Or.inr (Or.inr hgrows))
    cases halloc : alloc size with
    | false =>
        rw [reallocate_fails halloc]
        rfl
    | true =>
        have hused : fb.used < size := by
          have := (hrequests.le hranges hover).1
          have := h.le
          omega
        obtain ⟨cs', hrealloc, -⟩ := reallocate_backed h halloc hused
        rw [hrealloc]
        rfl
  · rw [fbufExtend_diverges hskip hranges hmore hover hgrows]
    refine iff_of_false Bool.false_ne_true ?_
    rintro (hle | hrefuses | hgrows')
    · exact hfit hle
    · exact hover hrefuses
    · exact hgrows hgrows'

theorem Extended.backed {r : ℕ} (h : Backed fb) (hext : Extended alloc fb N fb' r) :
    Backed fb' := by
  have hranges := h.ranges
  cases hext with
  | room hroom => exact h
  | refused hmore hover => exact h
  | @compacted cs hmore hfit hlen hcontents hbehind =>
      have hdata : fb.data.isSome = true := by
        rcases h.storage with ⟨-, -, hzero⟩ | ⟨cs', hdata, -⟩
        · omega
        · rw [hdata]
          rfl
      have hinside := h.inside hdata
      refine backed_of_inside ⟨hranges.len_lt, hranges.maxlen_lt, hranges.minlen_lt,
        hranges.fastgrowsize_lt, hranges.slowgrowsize_lt⟩ (hlen.trans_le h.cells_le) ?_
      show 0 + fb.used < cs.length
      omega
  | @failed size hmore hfits hrequests halloc =>
      obtain ⟨hle, hlt⟩ := hrequests.le hranges hfits
      have hcells := h.cells_le
      refine ⟨⟨hlt, hranges.maxlen_lt, hranges.minlen_lt, hranges.fastgrowsize_lt,
        hranges.slowgrowsize_lt⟩, ?_, h.inside, h.empty⟩
      show (cells fb).length ≤ size
      omega
  | @reallocated _ cs hmore hfits hrequests halloc hused hlen hcontents hbehind =>
      obtain ⟨hle, hlt⟩ := hrequests.le hranges hfits
      refine backed_of_inside ⟨hlt, hranges.maxlen_lt, hranges.minlen_lt,
        hranges.fastgrowsize_lt, hranges.slowgrowsize_lt⟩ hlen.le ?_
      show 0 + fb.used < cs.length
      omega

theorem Extended.sameContent {r : ℕ} (hext : Extended alloc fb N fb' r) : SameContent fb fb' := by
  cases hext with
  | room hroom => exact ⟨rfl, rfl⟩
  | refused hmore hover => exact ⟨rfl, rfl⟩
  | compacted hmore hfit hlen hcontents hbehind => exact ⟨rfl, hcontents⟩
  | failed hmore hfits hrequests halloc => exact ⟨rfl, rfl⟩
  | reallocated hmore hfits hrequests halloc hused hlen hcontents hbehind =>
      exact ⟨rfl, hcontents⟩

/-- If it does not return zero, then there is room, and the length is that of the storage if it
was so before. -/
theorem Extended.room_of_ne {r : ℕ} (h : Backed fb) (hext : Extended alloc fb N fb' r)
    (hr : r ≠ 0) : fb'.skip + N ≤ fb'.len := by
  cases hext with
  | room hroom => exact hroom
  | refused hmore hover => exact absurd rfl hr
  | compacted hmore hfit hlen hcontents hbehind =>
      dsimp only
      omega
  | failed hmore hfits hrequests halloc => exact absurd rfl hr
  | reallocated hmore hfits hrequests halloc hused hlen hcontents hbehind =>
      have := (hrequests.le h.ranges hfits).1
      dsimp only
      omega

theorem Extended.eq_zero_iff {r : ℕ} (hmore : fb.len < N) (hext : Extended alloc fb N fb' r) :
    r = 0 ↔ Refuses fb N ∨ ∃ size, Requests fb N size ∧ alloc size = false := by
  cases hext with
  | room hroom => omega
  | refused hmore hover => exact iff_of_true rfl (Or.inl hover)
  | compacted hmore hfit hlen hcontents hbehind htail => omega
  | failed hmore hfits hrequests halloc =>
      exact iff_of_true rfl (Or.inr ⟨_, hrequests, halloc⟩)
  | reallocated hmore hfits hrequests halloc hused hlen hcontents hbehind htail =>
      refine iff_of_false (by omega) ?_
      rintro (hover | ⟨size, hrequests', halloc'⟩)
      · exact hfits hover
      · rw [hrequests'.unique hrequests, halloc] at halloc'
        cases halloc'

/-- Otherwise the content is at the start, and what is behind it was there before. -/
theorem Extended.grown {r : ℕ} (hmore : fb.len < N) (hext : Extended alloc fb N fb' r)
    (hr : r ≠ 0) : fb'.skip = 0 ∧
      ∀ p b, fb.used < p → (cells fb')[p]? = some (some b) → (cells fb)[p]? = some (some b) := by
  cases hext with
  | room hroom => omega
  | refused hmore hover => exact absurd rfl hr
  | compacted hmore hfit hlen hcontents hbehind htail => omega
  | failed hmore hfits hrequests halloc => exact absurd rfl hr
  | reallocated hmore hfits hrequests halloc hused hlen hcontents hbehind htail =>
      exact ⟨rfl, htail⟩

theorem Extended.len_of_ne {r : ℕ} (hext : Extended alloc fb N fb' r) (hr : r ≠ 0) :
    fb'.len = r := by
  cases hext with
  | room hroom => rfl
  | refused hmore hover => exact absurd rfl hr
  | compacted hmore hfit hlen hcontents hbehind => rfl
  | failed hmore hfits hrequests halloc => exact absurd rfl hr
  | reallocated hmore hfits hrequests halloc hused hlen hcontents hbehind => rfl

theorem Extended.sound_of_ne {r : ℕ} (h : Sound fb) (hext : Extended alloc fb N fb' r)
    (hr : r ≠ 0) : Sound fb' := by
  refine ⟨hext.backed h.toBacked, ?_⟩
  cases hext with
  | room hroom => exact h.whole
  | refused hmore hover => exact h.whole
  | compacted hmore hfit hlen hcontents hbehind => exact hlen.trans h.whole
  | failed hmore hfits hrequests halloc => exact absurd rfl hr
  | reallocated hmore hfits hrequests halloc hused hlen hcontents hbehind => exact hlen

theorem Sound.exists_cells (h : Sound fb) (hlen : fb.len ≠ 0) :
    ∃ cs, fb.data = some cs ∧ cells fb = cs ∧ cs.length = fb.len := by
  cases hdata : fb.data with
  | none =>
      have hzero : fb.len = 0 := by
        rw [← h.whole, cells, hdata]
        rfl
      exact absurd hzero hlen
  | some cs =>
      have hcells := cells_some hdata
      exact ⟨cs, rfl, hcells, by rw [← h.whole, hcells]⟩

end FBuf
end LibHL
