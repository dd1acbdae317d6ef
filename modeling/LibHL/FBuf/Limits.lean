import LibHL.FBuf.Reachable

/-!
# The limits of a flat buffer

`fbuf_maxlen` compares the length with the limit also when the limit is zero or was only asked
for, and then cuts the content.  `fbuf_minlen` compares the number of bytes with the length to
allocate, but not the place where they end.
-/

namespace LibHL
namespace FBuf

open Storage Circular Loop

variable {alloc : ℕ → Bool} {fb fb' : FBuf} {cs : List (Option UInt8)} {m n : ℕ}

/-! ## The greatest length -/

/-- The limit after `fbuf_maxlen`. -/
def newLimit (fb : FBuf) (m : ℕ) : ℕ := if m < UINT_MAX then m else fb.maxlen

/-- The same content and the same fields, but for the address of the storage. -/
structure Unchanged (fb fb' : FBuf) : Prop extends SameContent fb fb' where
  len : fb'.len = fb.len
  skip : fb'.skip = fb.skip
  maxlen : fb'.maxlen = fb.maxlen
  minlen : fb'.minlen = fb.minlen
  fastgrowsize : fb'.fastgrowsize = fb.fastgrowsize
  slowgrowsize : fb'.slowgrowsize = fb.slowgrowsize

/-- The content is truncated to a new limit, kept if there is to be none, and terminated, and
nothing changes if the limit is only asked for. -/
structure LimitedTo (fb : FBuf) (m : ℕ) (fb' : FBuf) : Prop where
  limit : 0 < m → m < UINT_MAX → contents fb' = (contents fb).take m
  none : m = FBUF_MAXLEN_NONE → contents fb' = contents fb
  query : m = UINT_MAX → Unchanged fb fb'
  used : fb'.used = (contents fb').length
  terminated : Terminated fb'

/-- `fbuf_maxlen` does that, and returns the old limit. -/
def Limits (alloc : ℕ → Bool) (fb : FBuf) (m : ℕ) : Prop :=
  ∃ fb', fbufMaxlen alloc fb m = some (fb', fb.maxlen) ∧ LimitedTo fb m fb'

/-- The storage can be cut: the content ends at the limit or with a terminator that stays, and
there is none where it must not be cut. -/
def CutFits (fb : FBuf) (m : ℕ) : Prop :=
  (m = FBUF_MAXLEN_NONE → fb.used = 0) ∧
    (newLimit fb m ≤ fb.used ∨ 0 < fb.used ∧ Terminated fb) ∧
    (m = UINT_MAX → fb.len = fb.maxlen + 1 ∧ fb.skip = 0)

/-- Without memory, the content is as it should be after the storage was shrunk. -/
def UncutFits (alloc : ℕ → Bool) (fb : FBuf) (m : ℕ) : Prop :=
  fb.maxlen = 0 ∧ (0 < m → m < UINT_MAX → fb.used ≤ m) ∧ (fb.used = 0 ∨ Terminated fb) ∧
    (m = UINT_MAX → fb.used ≠ 0 ∧ fb.skip = 0 ∧
      ∀ newlen, ShrinksTo fb newlen → newlen ≠ fb.len → alloc newlen = false)

/-- The length is within the limit, or the storage can be shrunk, and then be cut or be left
uncut. -/
def LimitFits (alloc : ℕ → Bool) (fb : FBuf) (m : ℕ) : Prop :=
  if fb.len ≤ newLimit fb m then
    Terminated fb
  else
    (fb.used = 0 ∨ ShrinkEnds fb) ∧
      if alloc (newLimit fb m + 1) then CutFits fb m else UncutFits alloc fb m

theorem fbufMaxlen_eq (alloc : ℕ → Bool) (fb : FBuf) (m : ℕ) :
    fbufMaxlen alloc fb m =
      if newLimit fb m < fb.len then
        truncateTo alloc { fb with maxlen := newLimit fb m } fb.maxlen
      else some ({ fb with maxlen := newLimit fb m }, fb.maxlen) := by
  rw [fbufMaxlen, newLimit]
  by_cases hm : m < UINT_MAX
  · simp only [if_pos hm]
  · simp only [if_neg hm]

theorem Backed.with_maxlen (h : Backed fb) (hm : m < UINT_RANGE) :
    Backed { fb with maxlen := m } where
  ranges := ⟨h.ranges.len_lt, hm, h.ranges.minlen_lt, h.ranges.fastgrowsize_lt,
    h.ranges.slowgrowsize_lt⟩
  cells_le := h.cells_le
  inside := h.inside
  empty := h.empty

theorem newLimit_lt (h : Ranges fb) (m : ℕ) : newLimit fb m < UINT_RANGE := by
  rw [newLimit]
  split
  · have : UINT_MAX = UINT_RANGE - 1 := rfl
    omega
  · exact h.maxlen_lt

/-- The buffer with a storage that was cut to the limit. -/
def cutTo (fb : FBuf) (limit : ℕ) (cs : List (Option UInt8)) : FBuf :=
  { fb with
    data := some cs
    len := limit + 1
    used := min limit fb.used
    skip := 0
    maxlen := limit }

theorem truncateTo_cut {data : Storage UInt8} {len limit old r : ℕ}
    (hshrink : fbufShrink alloc { fb with maxlen := limit } =
      some ({ fb with data := data, len := len, skip := 0, maxlen := limit }, r))
    (hlimit : limit + 1 < UINT_RANGE) (halloc : alloc (limit + 1) = true) :
    ∃ cs', truncateTo alloc { fb with maxlen := limit } old = some (cutTo fb limit cs', old) ∧
      cs'.length = limit + 1 ∧ cs'[limit]? = some (some 0) ∧
      ∀ k < limit, cs'[k]? = ((resize data (limit + 1)).getD [])[k]? := by
  have hlength : ((resize data (limit + 1)).getD []).length = limit + 1 := length_resize _ _
  have hfit : limit + [some (0 : UInt8)].length ≤ ((resize data (limit + 1)).getD []).length := by
    rw [hlength, List.length_singleton]
  have hpoke : poke (resize data (limit + 1)) limit [some 0] =
      some (some (overwrite ((resize data (limit + 1)).getD []) limit [some 0])) :=
    poke_of_le hfit
  have hused : (if limit ≤ fb.used then limit else fb.used) = min limit fb.used := rfl
  refine ⟨overwrite ((resize data (limit + 1)).getD []) limit [some 0], ?_,
    (length_overwrite hfit).trans hlength, ?_, ?_⟩
  · rw [truncateTo, hshrink]
    simp only [Option.bind_eq_bind, Option.bind_some]
    rw [uadd_of_lt hlimit, if_pos halloc, hpoke, Option.bind_some, hused]
    rfl
  · rw [getElem?_overwrite hfit, List.length_singleton, if_pos (by omega), Nat.sub_self]
    rfl
  · intro k hk
    rw [getElem?_overwrite hfit, List.length_singleton, if_neg (by omega)]

theorem truncateTo_uncut {data : Storage UInt8} {len limit old r : ℕ}
    (hshrink : fbufShrink alloc { fb with maxlen := limit } =
      some ({ fb with data := data, len := len, skip := 0, maxlen := limit }, r))
    (hlimit : limit + 1 < UINT_RANGE) (halloc : alloc (limit + 1) = false) :
    truncateTo alloc { fb with maxlen := limit } old =
      some ({ fb with data := data, len := len, skip := 0, maxlen := limit }, 0) := by
  rw [truncateTo, hshrink]
  simp only [Option.bind_eq_bind, Option.bind_some]
  rw [uadd_of_lt hlimit, halloc]
  exact if_neg Bool.false_ne_true

theorem take_eq_of_getElem? {a b : List (Option UInt8)} (hall : ∀ k < n, a[k]? = b[k]?) :
    a.take n = b.take n := by
  apply List.ext_getElem?
  intro k
  by_cases hk : k < n
  · rw [List.getElem?_take_of_lt hk, List.getElem?_take_of_lt hk, hall k hk]
  · rw [List.getElem?_take_eq_none (Nat.not_lt.mp hk), List.getElem?_take_eq_none (Nat.not_lt.mp hk)]

/-- The buffer that is left after shrinking under a new limit. -/
theorem fbufShrink_limited (alloc : ℕ → Bool) {limit : ℕ} (h : Backed fb)
    (hlimit : limit < fb.len) (hends : fb.used = 0 ∨ ShrinkEnds fb) :
    ∃ data len r, fbufShrink alloc { fb with maxlen := limit } =
        some ({ fb with data := data, len := len, skip := 0, maxlen := limit }, r) ∧
      (fb.used = 0 → data = none ∧ len = 0) ∧
      (fb.used ≠ 0 → ∃ cs, data = some cs ∧ fb.used < cs.length ∧ fb.used < len ∧
        cs.take fb.used = contents fb ∧ cs[fb.used]? = behind fb ∧
        ∃ newlen, ShrinksTo fb newlen ∧ len = shrunkLen alloc fb newlen) := by
  have hranges := h.ranges
  have hbacked := h.with_maxlen (hlimit.trans hranges.len_lt)
  by_cases hused : fb.used = 0
  · obtain ⟨data, hrun, hfree, -⟩ := fbufShrink_empty alloc hbacked hused
    have hlen : fb.len ≠ 0 := by omega
    exact ⟨data, 0, 0, hrun, fun _ => ⟨hfree hlen, rfl⟩, fun hne => absurd hused hne⟩
  · obtain ⟨newlen, hto⟩ :=
      (hends.resolve_left hused).shrinksTo hranges (h.used_lt_len hused)
    obtain ⟨data, hrun, hkept, hsame, hbehind, -⟩ := fbufShrink_stops alloc hbacked hused hto
    obtain ⟨cs, rfl⟩ : ∃ cs, data = some cs :=
      Option.isSome_iff_exists.mp (hkept.isSome_of_used hused)
    have hinside : 0 + fb.used < cs.length := hkept.inside rfl
    have hcovers : 0 + fb.used < shrunkLen alloc fb newlen := hkept.covers rfl
    have hbehind' : cs[0 + fb.used]? = behind fb := hbehind
    rw [Nat.zero_add] at hinside hcovers hbehind'
    exact ⟨some cs, _, _, hrun, fun hzero => absurd hzero hused, fun _ =>
      ⟨cs, rfl, hinside, hcovers, hsame.contents, hbehind', newlen, hto, rfl⟩⟩

/-- Cutting the storage does what it should exactly if it can be cut. -/
theorem cut_iff {data : Storage UInt8} {cs' : List (Option UInt8)} (h : Backed fb)
    (hempty : fb.used = 0 → data = none)
    (hstored : fb.used ≠ 0 → ∃ cs, data = some cs ∧ fb.used < cs.length ∧
      cs.take fb.used = contents fb ∧ cs[fb.used]? = behind fb)
    (hlast : cs'[newLimit fb m]? = some (some 0))
    (hfirst : ∀ k < newLimit fb m,
      cs'[k]? = ((resize data (newLimit fb m + 1)).getD [])[k]?) :
    LimitedTo fb m (cutTo fb (newLimit fb m) cs') ↔ CutFits fb m := by
  have hcontents : contents (cutTo fb (newLimit fb m) cs') = (contents fb).take (newLimit fb m) := by
    show cs'.take (min (newLimit fb m) fb.used) = _
    by_cases hused : fb.used = 0
    · rw [hused, Nat.min_zero, List.take_zero, contents_eq_nil hused, List.take_nil]
    · obtain ⟨cs, rfl, hinside, hcs, -⟩ := hstored hused
      rw [← hcs, List.take_take]
      apply take_eq_of_getElem?
      intro k hk
      rw [hfirst k (by omega), getElem?_resize (by omega) (by omega)]
  have hlength := h.length_contents
  have hterm : Terminated (cutTo fb (newLimit fb m) cs') ↔ newLimit fb m ≤ fb.used ∨ 0 < fb.used ∧ Terminated fb := by
    have hplain : Terminated (cutTo fb (newLimit fb m) cs') ↔
        cs'[min (newLimit fb m) fb.used]? = some (some 0) := by
      constructor
      · intro hterm
        have hzero : cs'[0 + min (newLimit fb m) fb.used]? = some (some 0) := (hterm rfl).2
        rwa [Nat.zero_add] at hzero
      · intro hzero _
        refine ⟨?_, ?_⟩
        · show 0 + min (newLimit fb m) fb.used < newLimit fb m + 1
          omega
        · show cs'[0 + min (newLimit fb m) fb.used]? = _
          rw [Nat.zero_add, hzero]
    rw [hplain]
    by_cases hle : newLimit fb m ≤ fb.used
    · rw [Nat.min_eq_left hle]
      exact iff_of_true hlast (Or.inl hle)
    have hlt := Nat.not_le.mp hle
    rw [Nat.min_eq_right hlt.le, hfirst fb.used hlt]
    by_cases hused : fb.used = 0
    · rw [hempty hused, resize_none, Option.getD_some, List.getElem?_replicate,
        if_pos (by omega)]
      refine iff_of_false (by decide) ?_
      rintro (hle' | ⟨hpos, -⟩)
      · exact hle hle'
      · omega
    · obtain ⟨cs, rfl, hinside, -, hbehind⟩ := hstored hused
      have hsome := h.isSome_of_used hused
      rw [getElem?_resize (by omega) hinside, hbehind]
      constructor
      · exact fun hzero => Or.inr ⟨Nat.pos_of_ne_zero hused, fun _ => ⟨h.covers hsome, hzero⟩⟩
      · rintro (hle' | ⟨-, hterm⟩)
        · exact absurd hle' hle
        · exact (hterm hsome).2
  constructor
  · rintro ⟨-, hnone, hquery, -, hends⟩
    refine ⟨?_, hterm.mp hends, ?_⟩
    · intro hm
      have hall := congrArg List.length (hcontents.symm.trans (hnone hm))
      have hzero : newLimit fb m = 0 := by
        rw [newLimit, hm]
        rfl
      rw [List.length_take, hlength, hzero, Nat.zero_min] at hall
      exact hall.symm
    · intro hm
      have hlim : newLimit fb m = fb.maxlen := by
        rw [newLimit, hm, if_neg (lt_irrefl _)]
      obtain ⟨-, hlen, hskip, -⟩ := hquery hm
      have hlen' : newLimit fb m + 1 = fb.len := hlen
      exact ⟨by omega, hskip.symm⟩
  · rintro ⟨hnone, hends, hquery⟩
    refine ⟨?_, ?_, ?_, ?_, hterm.mpr hends⟩
    · intro hpos hlt
      rw [hcontents, newLimit, if_pos hlt]
    · intro hm
      rw [hcontents, contents_eq_nil (hnone hm), List.take_nil]
    · intro hm
      have hlim : newLimit fb m = fb.maxlen := by
        rw [newLimit, hm, if_neg (lt_irrefl _)]
      obtain ⟨hlen, hskip⟩ := hquery hm
      have hle := h.le
      have hmin : min (newLimit fb m) fb.used = fb.used := by
        refine Nat.min_eq_right ?_
        by_cases hused : fb.used = 0
        · omega
        · have := h.used_lt_len hused
          omega
      refine ⟨⟨hmin, ?_⟩, ?_, hskip.symm, hlim, rfl, rfl, rfl⟩
      · rw [hcontents, List.take_of_length_le]
        rw [hlength]
        omega
      · show newLimit fb m + 1 = fb.len
        omega
    · rw [hcontents, List.length_take, hlength]
      rfl

/-- Leaving the storage as it was shrunk does what it should under these conditions. -/
theorem uncut_iff {data : Storage UInt8} {len : ℕ} (h : Backed fb)
    (hlimit : newLimit fb m < fb.len) (hempty : fb.used = 0 → data = none ∧ len = 0)
    (hstored : fb.used ≠ 0 → ∃ cs, data = some cs ∧ fb.used < cs.length ∧ fb.used < len ∧
      cs.take fb.used = contents fb ∧ cs[fb.used]? = behind fb ∧
      ∃ newlen, ShrinksTo fb newlen ∧ len = shrunkLen alloc fb newlen) :
    fb.maxlen = 0 ∧ LimitedTo fb m
        { fb with data := data, len := len, skip := 0, maxlen := newLimit fb m } ↔
      UncutFits alloc fb m := by
  have hlength := h.length_contents
  have hcontents : contents { fb with
      data := data, len := len, skip := 0, maxlen := newLimit fb m } = contents fb := by
    by_cases hused : fb.used = 0
    · rw [contents_eq_nil hused]
      exact contents_eq_nil hused
    · obtain ⟨cs, rfl, -, -, hcs, -⟩ := hstored hused
      exact hcs
  have hterm : Terminated { fb with
      data := data, len := len, skip := 0, maxlen := newLimit fb m } ↔
      fb.used = 0 ∨ Terminated fb := by
    by_cases hused : fb.used = 0
    · refine iff_of_true ?_ (Or.inl hused)
      intro hdata
      rw [(hempty hused).1] at hdata
      cases hdata
    · obtain ⟨cs, rfl, -, hcovers, -, hbehind, -⟩ := hstored hused
      have hsome := h.isSome_of_used hused
      rw [← Nat.zero_add fb.used] at hcovers hbehind
      constructor
      · intro hterm
        exact Or.inr fun _ => ⟨h.covers hsome, hbehind.symm.trans (hterm rfl).2⟩
      · rintro (hzero | hterm)
        · exact absurd hzero hused
        · exact fun _ => ⟨hcovers, hbehind.trans (hterm hsome).2⟩
  have hkept : fb.used ≠ 0 → (len = fb.len ↔
      ∀ newlen, ShrinksTo fb newlen → newlen ≠ fb.len → alloc newlen = false) := by
    intro hused
    obtain ⟨cs, -, -, -, -, -, newlen, hto, rfl⟩ := hstored hused
    rw [shrunkLen]
    constructor
    · intro hlen newlen' hto' hne
      rw [hto'.unique hto] at hne ⊢
      by_contra halloc
      rw [Bool.not_eq_false] at halloc
      rw [if_pos halloc] at hlen
      exact hne hlen
    · intro hfails
      by_cases hne : newlen = fb.len
      · rw [hne, ite_self]
      · rw [hfails newlen hto hne]
        exact if_neg Bool.false_ne_true
  constructor
  · rintro ⟨hold, hpos, -, hquery, -, hends⟩
    refine ⟨hold, ?_, hterm.mp hends, ?_⟩
    · intro hm hlt
      have hall := congrArg List.length (hcontents.symm.trans (hpos hm hlt))
      rw [List.length_take, hlength] at hall
      omega
    · intro hm
      obtain ⟨-, hlen, hskip, -⟩ := hquery hm
      have hlen' : len = fb.len := hlen
      have hused : fb.used ≠ 0 := by
        intro hzero
        have := (hempty hzero).2
        omega
      exact ⟨hused, hskip.symm, (hkept hused).mp hlen'⟩
  · rintro ⟨hold, hpos, hends, hquery⟩
    refine ⟨hold, ?_, fun _ => hcontents, ?_, ?_, hterm.mpr hends⟩
    · intro hm hlt
      rw [hcontents, List.take_of_length_le]
      rw [hlength]
      exact hpos hm hlt
    · intro hm
      obtain ⟨hused, hskip, hfails⟩ := hquery hm
      have hlim : newLimit fb m = fb.maxlen := by
        rw [newLimit, hm, if_neg (lt_irrefl _)]
      exact ⟨⟨rfl, hcontents⟩, (hkept hused).mpr hfails, hskip.symm, hlim, rfl, rfl, rfl⟩
    · rw [hcontents, hlength]

/-- `fbuf_maxlen` does what it should exactly under these conditions. -/
theorem limits_iff (hreach : Reachable AnyMemory fb) (m : ℕ) :
    Limits alloc fb m ↔ LimitFits alloc fb m := by
  have h := hreach.backed
  have hranges := h.ranges
  rw [Limits, LimitFits, fbufMaxlen_eq]
  by_cases hle : fb.len ≤ newLimit fb m
  · rw [if_neg (Nat.not_lt.mpr hle), if_pos hle]
    constructor
    · rintro ⟨fb', hrun, hlimited⟩
      cases hrun
      exact hlimited.terminated
    · intro hterm
      refine ⟨_, rfl, ?_, fun _ => rfl, ?_, h.length_contents.symm, hterm⟩
      · intro hpos hlt
        refine (List.take_of_length_le (h.length_contents.le.trans ?_)).symm
        rw [newLimit, if_pos hlt] at hle
        have := h.le
        omega
      · intro hm
        have hlim : newLimit fb m = fb.maxlen := by
          rw [newLimit, hm, if_neg (lt_irrefl _)]
        exact ⟨⟨rfl, rfl⟩, rfl, rfl, hlim, rfl, rfl, rfl⟩
  have hlimit := Nat.not_le.mp hle
  rw [if_pos hlimit, if_neg hle]
  by_cases hends : fb.used = 0 ∨ ShrinkEnds fb
  · obtain ⟨data, len, r, hshrink, hempty, hstored⟩ := fbufShrink_limited alloc h hlimit hends
    have hlt : newLimit fb m + 1 < UINT_RANGE := by
      have := hranges.len_lt
      omega
    rw [and_iff_right hends]
    cases halloc : alloc (newLimit fb m + 1) with
    | true =>
        rw [if_pos rfl]
        obtain ⟨cs', hrun, -, hlast, hfirst⟩ := truncateTo_cut hshrink hlt halloc
        rw [hrun, ← cut_iff h (fun hzero => (hempty hzero).1) ?_ hlast hfirst]
        · constructor
          · rintro ⟨fb', heq, hlimited⟩
            cases heq
            exact hlimited
          · exact fun hlimited => ⟨_, rfl, hlimited⟩
        · intro hused
          obtain ⟨cs, hcs, hinside, -, hcontents, hbehind, -⟩ := hstored hused
          exact ⟨cs, hcs, hinside, hcontents, hbehind⟩
    | false =>
        rw [if_neg Bool.false_ne_true, truncateTo_uncut hshrink hlt halloc,
          ← uncut_iff h hlimit hempty hstored]
        constructor
        · rintro ⟨fb', heq, hlimited⟩
          obtain ⟨rfl, hold⟩ := Prod.mk.inj (Option.some.inj heq)
          exact ⟨hold.symm, hlimited⟩
        · rintro ⟨hold, hlimited⟩
          exact ⟨_, by rw [hold], hlimited⟩
  · refine iff_of_false ?_ fun hfits => hends hfits.1
    rintro ⟨fb', hrun, -⟩
    rw [truncateTo] at hrun
    obtain ⟨r, hshrink, -⟩ := Option.bind_eq_some_iff.mp hrun
    refine hends ?_
    by_cases hused : fb.used = 0
    · exact Or.inl hused
    · have hbacked := h.with_maxlen (newLimit_lt hranges m)
      obtain ⟨newlen, hto⟩ := shrinksTo_of_fbufShrink hbacked hused hshrink
      exact Or.inr (hto.shrinkEnds hbacked.ranges)

/-- A buffer for at most three bytes that holds two. -/
def small : FBuf :=
  { fbufCreate 3 with data := some [some 97, some 98, some 0, none], len := 4, used := 2 }

theorem small_eq : fbufAddBinary (fun _ => true) (fbufCreate 3) ([97, 98].map some) =
    some (small, 2) := rfl

theorem small_reachable : Reachable AnyMemory small := by
  have hnew : Reachable AnyMemory (fbufCreate 3) := .create (by decide)
  exact hnew.call (fun _ => true) (.addBinary ([97, 98].map some)) trivial trivial
    (congrArg (Option.map Prod.fst) small_eq)

/-- Removing the limit removes the content. -/
theorem no_limit_empties :
    (∃ r, fbufAddBinary (fun _ => true) (fbufCreate 3) ([97, 98].map some) = some (small, r)) ∧
      ¬ Limits (fun _ => true) small FBUF_MAXLEN_NONE := by
  refine ⟨⟨2, small_eq⟩, ?_⟩
  rintro ⟨fb', hrun, hlimited⟩
  have hcut : (fbufMaxlen (fun _ => true) small FBUF_MAXLEN_NONE).map
      (fun r => contents r.1) = some [] := rfl
  rw [hrun, Option.map_some, hlimited.none rfl] at hcut
  exact absurd hcut (by decide)

theorem limits_iff_small :
    Limits (fun _ => true) small 1 ↔ LimitFits (fun _ => true) small 1 :=
  limits_iff small_reachable 1

/-! ## The least length -/

/-- A read of the content stays inside the storage, and so does an append if it comes to an
end and its length does not go round. -/
structure Usable (fb : FBuf) : Prop where
  read : (peek fb.data fb.skip fb.used).isSome = true
  append : ∀ (alloc : ℕ → Bool) (bytes : List (Option UInt8)),
    fb.used + bytes.length + 1 < UINT_RANGE →
    (fbufExtend alloc fb (uadd fb.used bytes.length)).isSome = true →
    (fbufAddBinary alloc fb bytes).isSome = true

/-- `fbuf_minlen` keeps the content and leaves a buffer whose length is that of its storage and
has room for the content and its terminator, so that it can be used. -/
def LeavesValid (alloc : ℕ → Bool) (fb : FBuf) (n : ℕ) : Prop :=
  SameContent fb (fbufMinlen alloc fb n).1 ∧ Sound (fbufMinlen alloc fb n).1 ∧
    Usable (fbufMinlen alloc fb n).1

/-- A storage of the new least length is allocated. -/
def Replaces (alloc : ℕ → Bool) (fb : FBuf) (n : ℕ) : Prop :=
  0 < n ∧ fb.used < n ∧ n < fb.len ∧ alloc n = true

instance decidableReplaces (alloc : ℕ → Bool) (fb : FBuf) (n : ℕ) :
    Decidable (Replaces alloc fb n) :=
  inferInstanceAs (Decidable (0 < n ∧ fb.used < n ∧ n < fb.len ∧ alloc n = true))

theorem Sound.isSome_fbufAddBinary {bytes : List (Option UInt8)} (h : Sound fb)
    (hround : fb.used + bytes.length + 1 < UINT_RANGE)
    (hext : (fbufExtend alloc fb (uadd fb.used bytes.length)).isSome = true) :
    (fbufAddBinary alloc fb bytes).isSome = true := by
  obtain ⟨⟨fb', r⟩, hrun⟩ := Option.isSome_iff_exists.mp hext
  rw [fbufAddBinary, hrun]
  by_cases hnil : bytes.length = 0
  · rw [if_pos hnil]
    rfl
  rw [if_neg hnil]
  simp only [Option.bind_eq_bind, Option.bind_some]
  by_cases hr : r = 0
  · rw [if_pos hr]
    rfl
  rw [if_neg hr]
  have hcases := fbufExtend_cases h.toBacked hrun
  rw [uadd_of_lt (by omega : fb.used + bytes.length < UINT_RANGE), uadd_of_lt hround] at hcases
  have hroom := hcases.room_of_ne h.toBacked hr
  have hsound := hcases.sound_of_ne h hr
  have hsame := hcases.sameContent.used
  have hlt := hsound.ranges.len_lt
  obtain ⟨cs, hdata, -, hlen⟩ := hsound.exists_cells (by omega)
  have hfit : fb'.skip + fb'.used + bytes.length ≤ cs.length := by omega
  have hlen' := length_overwrite hfit
  rw [hdata, uadd_of_lt (by omega : fb'.skip + fb'.used < UINT_RANGE), poke_of_le hfit,
    uadd_of_lt (by omega : fb'.used + bytes.length < UINT_RANGE)]
  simp only [Option.bind_some]
  rw [terminate]
  dsimp only
  rw [uadd_of_lt (by omega), poke_of_le (by rw [hlen', List.length_singleton]; omega)]
  rfl

theorem Sound.usable (h : Sound fb) : Usable fb :=
  ⟨h.toBacked.isSome_peek, fun _ _ => h.isSome_fbufAddBinary⟩

theorem fbufMinlen_of_replaces (h : Replaces alloc fb n) :
    (fbufMinlen alloc fb n).1 = { fb with data := resize fb.data n, len := n, minlen := n } := by
  obtain ⟨hpos, hused, hlen, halloc⟩ := h
  rw [fbufMinlen, if_pos hpos.ne']
  dsimp only
  rw [if_pos ⟨hused, hlen⟩, if_pos halloc]

theorem fbufMinlen_of_not_replaces (h : ¬ Replaces alloc fb n) :
    ∃ minlen, (fbufMinlen alloc fb n).1 = { fb with minlen := minlen } ∧
      (minlen = n ∨ minlen = fb.minlen) := by
  rw [fbufMinlen]
  by_cases hn : n = 0
  · rw [if_neg (not_not.mpr hn)]
    exact ⟨fb.minlen, rfl, Or.inr rfl⟩
  rw [if_pos hn]
  dsimp only
  by_cases hsmall : fb.used < n ∧ n < fb.len
  · have hfails : ¬ alloc n = true := fun halloc =>
      h ⟨Nat.pos_of_ne_zero hn, hsmall.1, hsmall.2, halloc⟩
    rw [if_pos hsmall, if_neg hfails]
    exact ⟨n, rfl, Or.inl rfl⟩
  · rw [if_neg hsmall]
    exact ⟨n, rfl, Or.inl rfl⟩

/-- It does exactly if the content ends before the new length, or the buffer was valid and
keeps its storage. -/
theorem leavesValid_iff (hreach : Reachable AnyMemory fb) (hn : n < UINT_RANGE) :
    LeavesValid alloc fb n ↔
      if Replaces alloc fb n then fb.skip + fb.used < n else Sound fb := by
  have h := hreach.backed
  have hranges := h.ranges
  by_cases hreplaces : Replaces alloc fb n
  · rw [if_pos hreplaces, LeavesValid, fbufMinlen_of_replaces hreplaces]
    have hwhole := length_resize fb.data n
    constructor
    · rintro ⟨-, hsound, -⟩
      exact hsound.covers rfl
    · intro hfits
      have hsound : Sound { fb with data := resize fb.data n, len := n, minlen := n } :=
        sound_of_inside ⟨hn, hranges.maxlen_lt, hn, hranges.fastgrowsize_lt,
          hranges.slowgrowsize_lt⟩ hwhole (hfits.trans_eq hwhole.symm)
      refine ⟨⟨rfl, ?_⟩, hsound, hsound.usable⟩
      show (((resize fb.data n).getD []).drop fb.skip).take fb.used = _
      rcases h.storage with ⟨-, hused, -⟩ | ⟨cs, hdata, hcells, hinside, -⟩
      · rw [hused, List.take_zero, contents_eq_nil hused]
      · rw [contents, hcells, hdata, List.take_drop, List.take_drop,
          take_resize hfits.le hinside.le]
  · obtain ⟨minlen, heq, hminlen⟩ := fbufMinlen_of_not_replaces hreplaces
    rw [if_neg hreplaces, LeavesValid, heq]
    have hlt : minlen < UINT_RANGE := by
      rcases hminlen with rfl | rfl
      · exact hn
      · exact hranges.minlen_lt
    constructor
    · rintro ⟨-, hsound, -⟩
      exact ⟨h, hsound.whole⟩
    · intro hsound
      have hsound' : Sound { fb with minlen := minlen } :=
        ⟨⟨⟨hranges.len_lt, hranges.maxlen_lt, hlt, hranges.fastgrowsize_lt,
          hranges.slowgrowsize_lt⟩, h.cells_le, h.inside, h.empty⟩, hsound.whole⟩
      exact ⟨⟨rfl, rfl⟩, hsound', hsound'.usable⟩

/-- A buffer for at most nine bytes that was filled. -/
def filled : FBuf :=
  { fbufCreate 9 with
    data := some ([97, 98, 99, 100, 101, 102, 103, 104, 105, 0].map some)
    len := 10
    used := 9 }

/-- Its first four bytes are removed. -/
def skipped : FBuf := { filled with used := 5, skip := 4 }

theorem skipped_reachable : Reachable AnyMemory skipped := by
  have hnew : Reachable AnyMemory (fbufCreate 9) := .create (by decide)
  have hfilled : Reachable AnyMemory filled :=
    hnew.call (fun _ => true) (.addBinary ([97, 98, 99, 100, 101, 102, 103, 104, 105].map some))
      trivial trivial rfl
  exact hfilled.call (fun _ => true) (.remove 4) trivial trivial rfl

/-- The new storage ends within the content. -/
theorem minlen_cuts :
    ((fbufAddBinary (fun _ => true) (fbufCreate 9)
        ([97, 98, 99, 100, 101, 102, 103, 104, 105].map some)) = some (filled, 9) ∧
      fbufRemove filled 4 = some (skipped, 5)) ∧ ¬ LeavesValid (fun _ => true) skipped 6 := by
  refine ⟨⟨rfl, rfl⟩, ?_⟩
  rintro ⟨-, hsound, -⟩
  exact absurd (hsound.covers rfl) (by decide)

theorem leavesValid_iff_skipped :
    LeavesValid (fun _ => true) skipped 6 ↔
      if Replaces (fun _ => true) skipped 6 then skipped.skip + skipped.used < 6
      else Sound skipped :=
  leavesValid_iff skipped_reachable (by decide)

end FBuf
end LibHL
