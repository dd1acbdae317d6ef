import LibHL.FBuf.Extending
import LibHL.FBuf.Operations

/-!
# Shrinking a flat buffer

`fbuf_shrink` halves small lengths and subtracts from large ones, without a look at whether
there is that much to subtract.  A length that is not small and has too little left goes round,
and the loop starts again from a length near the top of the range.
-/

namespace LibHL
namespace FBuf

open Storage Circular Loop

variable {alloc : ℕ → Bool} {fb fb' : FBuf} {cs : List (Option UInt8)} {x i k newlen : ℕ}

/-! ## The schedule of lengths -/

/-- The length that is tried after `x`. -/
def shrunk (fb : FBuf) (x : ℕ) : ℕ :=
  if x ≤ fastSize fb then x / 2 else usub x (slowSize fb)

/-- The loop keeps `x` if it may not go below it, or the next length has no room for the
content. -/
def ShrinkStops (fb : FBuf) (x : ℕ) : Prop := x ≤ fb.minlen ∨ shrunk fb x < fb.used + 1

instance decidableShrinkStops (fb : FBuf) : DecidablePred (ShrinkStops fb) :=
  fun x => inferInstanceAs (Decidable (x ≤ fb.minlen ∨ shrunk fb x < fb.used + 1))

/-- From this length on the loop no longer subtracts. -/
def bound (fb : FBuf) : ℕ := max (fastSize fb) (max fb.minlen fb.used)

/-- What is left of the length when it has gone round `i` times, and nothing more can be
subtracted. -/
def residue (fb : FBuf) (i : ℕ) : ℕ := (fb.len + i * UINT_RANGE) % slowSize fb

/-- The lengths come to one that is small enough. -/
def ShrinkEnds (fb : FBuf) : Prop := ∃ i, residue fb i ≤ bound fb

/-- They do so without a larger length being allocated. -/
def ShrinksDown (alloc : ℕ → Bool) (fb : FBuf) : Prop :=
  ∃ i, (∀ j < i, bound fb < residue fb j) ∧ residue fb i ≤ bound fb ∧
    (i = 0 ∨ slowSize fb ≤ fb.len ∨ fb.used < residue fb i ∨
      alloc (slowSize fb + residue fb i) = false)

theorem bound_le {n : ℕ} (h : bound fb < n) : fastSize fb < n ∧ fb.minlen < n ∧ fb.used < n := by
  rw [bound] at h
  omega

theorem shrinkLen_eq_loop (hused : fb.used + 1 < UINT_RANGE) : ∀ (fuel x : ℕ),
    shrinkLen fb fuel x = loop (ShrinkStops fb) (shrunk fb) fuel x := by
  intro fuel
  induction fuel with
  | zero => exact fun _ => rfl
  | succ fuel ih =>
      intro x
      rw [shrinkLen, loop, uadd_of_lt hused]
      by_cases hmin : x ≤ fb.minlen
      · have hstop : ShrinkStops fb x := Or.inl hmin
        rw [if_pos hmin, if_pos hstop]
      rw [if_neg hmin]
      by_cases hfit : fb.used + 1 ≤ shrunk fb x
      · have hgo : ¬ ShrinkStops fb x := by
          rintro (hle | hlt)
          · exact hmin hle
          · omega
        rw [if_neg hgo, ← ih]
        exact if_pos hfit
      · have hstop : ShrinkStops fb x := Or.inr (Nat.not_le.mp hfit)
        rw [if_pos hstop]
        exact if_neg hfit

theorem shrunk_lt (fb : FBuf) : ∀ n < UINT_RANGE, shrunk fb n < UINT_RANGE := by
  intro n hn
  rw [shrunk]
  split
  · omega
  · exact Nat.mod_lt _ (Nat.two_pow_pos 32)

/-- The loop ends with this length. -/
def ShrinksTo (fb : FBuf) (newlen : ℕ) : Prop :=
  ∃ k, StopsAfter (ShrinkStops fb) (shrunk fb) fb.len k ∧ (shrunk fb)^[k] fb.len = newlen

theorem shrinkLen_eq_some_iff (h : Ranges fb) (hused : fb.used + 1 < UINT_RANGE) :
    shrinkLen fb UINT_RANGE fb.len = some newlen ↔ ShrinksTo fb newlen := by
  rw [shrinkLen_eq_loop hused]
  exact loop_eq_some_iff_of_lt (shrunk_lt fb) h.len_lt

theorem ShrinksTo.lt (h : ShrinksTo fb newlen) (hranges : Ranges fb) : newlen < UINT_RANGE := by
  obtain ⟨k, -, rfl⟩ := h
  exact iterate_lt (shrunk_lt fb) hranges.len_lt k

theorem ShrinksTo.unique {newlen' : ℕ} (h : ShrinksTo fb newlen) (h' : ShrinksTo fb newlen') :
    newlen = newlen' := by
  obtain ⟨k, hk, rfl⟩ := h
  obtain ⟨k', hk', rfl⟩ := h'
  rw [hk.unique hk']

theorem ShrinksTo.fits (h : ShrinksTo fb newlen) (hused : fb.used < fb.len) :
    fb.used < newlen := by
  obtain ⟨k, hk, rfl⟩ := h
  cases k with
  | zero => exact hused
  | succ k =>
      have hgo := hk.before k (Nat.lt_succ_self k)
      rw [Function.iterate_succ_apply']
      exact Nat.not_le.mp fun hle => hgo (Or.inr (Nat.lt_succ_of_le hle))

/-! ## One length after another -/

theorem shrunk_of_le (hx : x < UINT_RANGE) (hbound : bound fb < x) (hle : slowSize fb ≤ x) :
    shrunk fb x = x - slowSize fb := by
  rw [shrunk, if_neg (Nat.not_le.mpr (bound_le hbound).1), usub_of_le hle hx]

theorem shrunk_of_lt (h : Ranges fb) (hbound : bound fb < x) (hlt : x < slowSize fb) :
    shrunk fb x = x + (UINT_RANGE - slowSize fb) := by
  have hslow := h.slowSize_lt
  rw [shrunk, if_neg (Nat.not_le.mpr (bound_le hbound).1), usub]
  exact Nat.mod_eq_of_lt (by omega)

theorem mod_of_subtracted (hle : slowSize fb ≤ x) :
    (x - slowSize fb) % slowSize fb = x % slowSize fb :=
  (Nat.mod_eq_sub_mod hle).symm

/-- Where the loop ends from a length that leaves a small enough rest. -/
structure Descends (fb : FBuf) (x y : ℕ) : Prop where
  fits : fb.used < y
  le : y ≤ x
  /-- Either it ends at a small length, or the rest has no room for the content. -/
  ends : (y ≤ bound fb ∧ (x ≤ bound fb ∨
      ∃ v ≤ bound fb, fb.used < v ∧ v % slowSize fb = x % slowSize fb)) ∨
    (bound fb < y ∧ y % slowSize fb = x % slowSize fb ∧ slowSize fb ≤ y ∧
      y - slowSize fb ≤ fb.used)

theorem descends_of_le : ∀ x < UINT_RANGE, fb.used < x →
    x % slowSize fb ≤ bound fb →
    ∃ k, StopsAfter (ShrinkStops fb) (shrunk fb) x k ∧ Descends fb x ((shrunk fb)^[k] x) := by
  intro x
  induction x using Nat.strong_induction_on with
  | h x ih =>
      intro hx hused hrest
      -- A length above the bound is one from which can be subtracted.
      have hle : bound fb < x → slowSize fb ≤ x := by
        intro hbound
        by_contra hlt
        rw [Nat.mod_eq_of_lt (Nat.not_le.mp hlt)] at hrest
        exact absurd hrest (Nat.not_le.mpr hbound)
      by_cases hstop : ShrinkStops fb x
      · refine ⟨0, ⟨hstop, fun j hj => absurd hj (Nat.not_lt_zero j)⟩, hused, le_rfl, ?_⟩
        by_cases hbound : x ≤ bound fb
        · exact Or.inl ⟨hbound, Or.inl hbound⟩
        · have hsub := hle (Nat.not_le.mp hbound)
          have hmin := (bound_le (Nat.not_le.mp hbound)).2.1
          have hnext := hstop.resolve_left (Nat.not_le.mpr hmin)
          rw [shrunk_of_le hx (Nat.not_le.mp hbound) hsub] at hnext
          exact Or.inr ⟨Nat.not_le.mp hbound, rfl, hsub, Nat.le_of_lt_succ hnext⟩
      have hmin : fb.minlen < x := Nat.not_le.mp fun hle => hstop (Or.inl hle)
      have hfits : fb.used < shrunk fb x := Nat.not_le.mp fun hle =>
        hstop (Or.inr (Nat.lt_succ_of_le hle))
      by_cases hfast : x ≤ fastSize fb
      · -- Small lengths are halved.
        have hnext : shrunk fb x = x / 2 := if_pos hfast
        have hbound : x ≤ bound fb := hfast.trans (le_max_left _ _)
        rw [hnext] at hfits
        have hsmall : x / 2 % slowSize fb ≤ bound fb :=
          (Nat.mod_le _ _).trans (by omega)
        obtain ⟨k, hk, hfit, hle', -⟩ := ih (x / 2) (by omega) (by omega) hfits hsmall
        rw [← hnext] at hk
        refine ⟨k + 1, hk.of_step hstop, ?_⟩
        rw [Function.iterate_succ_apply, hnext]
        exact ⟨hfit, by omega, Or.inl ⟨by omega, Or.inl hbound⟩⟩
      · have hbound : bound fb < x := by
          rw [bound]
          omega
        have hsub := hle hbound
        have hslow := slowSize_pos fb
        have hnext := shrunk_of_le hx hbound hsub
        rw [hnext] at hfits
        have hmod := mod_of_subtracted hsub
        obtain ⟨k, hk, hfit, hle', hends⟩ := ih (x - slowSize fb) (by omega) (by omega) hfits
          (hmod.le.trans hrest)
        rw [← hnext] at hk
        refine ⟨k + 1, hk.of_step hstop, ?_⟩
        rw [Function.iterate_succ_apply, hnext]
        refine ⟨hfit, by omega, ?_⟩
        rcases hends with ⟨hsmall, hwhole | ⟨v, hv, hvused, hvmod⟩⟩ | ⟨habove, hsame, hrest'⟩
        · exact Or.inl ⟨hsmall, Or.inr ⟨_, hwhole, hfits, hmod⟩⟩
        · exact Or.inl ⟨hsmall, Or.inr ⟨v, hv, hvused, hvmod.trans hmod⟩⟩
        · exact Or.inr ⟨habove, hsame.trans hmod, hrest'⟩

theorem not_shrinkStops (h : Ranges fb) (hx : x < UINT_RANGE)
    (hrest : bound fb < x % slowSize fb) : ¬ ShrinkStops fb x := by
  have hslow := h.slowSize_lt
  have hbound : bound fb < x := hrest.trans_le (Nat.mod_le _ _)
  obtain ⟨-, hmin, hused⟩ := bound_le hbound
  have hrest' := (bound_le hrest).2.2
  rintro (hle | hlt)
  · exact absurd hle (Nat.not_le.mpr hmin)
  by_cases hsub : slowSize fb ≤ x
  · have hle := Nat.mod_le (x - slowSize fb) (slowSize fb)
    rw [mod_of_subtracted hsub] at hle
    rw [shrunk_of_le hx hbound hsub] at hlt
    omega
  · rw [shrunk_of_lt h hbound (Nat.not_le.mp hsub)] at hlt
    omega

/-- A rest above the bound: nothing stops the loop before the length goes round. -/
theorem goesRound (h : Ranges fb) : ∀ x < UINT_RANGE, bound fb < x % slowSize fb →
    ∃ k, (shrunk fb)^[k] x = x % slowSize fb + (UINT_RANGE - slowSize fb) ∧
      ∀ j < k, ¬ ShrinkStops fb ((shrunk fb)^[j] x) := by
  have hslow := slowSize_pos fb
  intro x
  induction x using Nat.strong_induction_on with
  | h x ih =>
      intro hx hrest
      have hbound : bound fb < x := hrest.trans_le (Nat.mod_le _ _)
      have hgo := not_shrinkStops h hx hrest
      by_cases hsub : slowSize fb ≤ x
      · have hnext := shrunk_of_le hx hbound hsub
        have hmod := mod_of_subtracted hsub
        rw [← hmod] at hrest
        obtain ⟨k, hk, hbefore⟩ := ih (x - slowSize fb) (by omega) (by omega) hrest
        rw [hmod] at hk
        refine ⟨k + 1, ?_, ?_⟩
        · rw [Function.iterate_succ_apply, hnext, hk]
        · intro j hj
          cases j with
          | zero => exact hgo
          | succ j =>
              rw [Function.iterate_succ_apply, hnext]
              exact hbefore j (Nat.lt_of_succ_lt_succ hj)
      · have hlt := Nat.not_le.mp hsub
        refine ⟨1, ?_, ?_⟩
        · rw [Function.iterate_one, shrunk_of_lt h hbound hlt, Nat.mod_eq_of_lt hlt]
        · intro j hj
          obtain rfl : j = 0 := by omega
          exact hgo

/-! ## Going round several times -/

theorem residue_succ (h : Ranges fb) (hx : x % slowSize fb = residue fb i) :
    (x % slowSize fb + (UINT_RANGE - slowSize fb)) % slowSize fb = residue fb (i + 1) := by
  have hslow := h.slowSize_lt
  have hsum : x % slowSize fb + (UINT_RANGE - slowSize fb) + slowSize fb =
      x % slowSize fb + UINT_RANGE := by omega
  have hnext : fb.len + (i + 1) * UINT_RANGE = fb.len + i * UINT_RANGE + UINT_RANGE := by
    rw [Nat.succ_mul, Nat.add_assoc]
  rw [← Nat.add_mod_right, hsum, Nat.mod_add_mod, residue, hnext, Nat.add_mod, hx, residue,
    ← Nat.add_mod]

/-- The length after `i` rounds, which nothing has stopped. -/
theorem exists_round (h : Ranges fb) (i : ℕ) (hbefore : ∀ j < i, bound fb < residue fb j) :
    ∃ k x, (shrunk fb)^[k] fb.len = x ∧ x < UINT_RANGE ∧ x % slowSize fb = residue fb i ∧
      (∀ j < k, ¬ ShrinkStops fb ((shrunk fb)^[j] fb.len)) ∧
      (i = 0 → k = 0) ∧ (i ≠ 0 → ∃ r, bound fb < r ∧ r < slowSize fb ∧
        x = r + (UINT_RANGE - slowSize fb)) := by
  induction i with
  | zero =>
      refine ⟨0, fb.len, rfl, h.len_lt, ?_, fun j hj => absurd hj (Nat.not_lt_zero j), fun _ => rfl,
        fun hne => absurd rfl hne⟩
      rw [residue, Nat.zero_mul, Nat.add_zero]
  | succ i ih =>
      obtain ⟨k, x, hk, hx, hmod, hgo, -, -⟩ := ih fun j hj => hbefore j (Nat.lt_succ_of_lt hj)
      have hrest : bound fb < x % slowSize fb := by
        rw [hmod]
        exact hbefore i (Nat.lt_succ_self i)
      have hslow := h.slowSize_lt
      have hlt : x % slowSize fb < slowSize fb := Nat.mod_lt _ (slowSize_pos fb)
      obtain ⟨m, hm, hgo'⟩ := goesRound h x hx hrest
      refine ⟨m + k, _, ?_, ?_, residue_succ h hmod, ?_, fun hzero => absurd hzero
        (Nat.succ_ne_zero i), fun _ => ⟨_, hrest, hlt, rfl⟩⟩
      · rw [Function.iterate_add_apply, hk, hm]
      · omega
      · intro j hj
        by_cases hfirst : j < k
        · exact hgo j hfirst
        · have hsum : j = j - k + k := by omega
          rw [hsum, Function.iterate_add_apply, hk]
          exact hgo' (j - k) (by omega)

theorem ShrinksTo.shrinkEnds (hto : ShrinksTo fb newlen) (h : Ranges fb) : ShrinkEnds fb := by
  obtain ⟨k, hk, -⟩ := hto
  by_contra hnever
  have hbound : ∀ i, bound fb < residue fb i := fun i =>
    Nat.not_le.mp fun hle => hnever ⟨i, hle⟩
  -- Every length leaves the rest of some round, and so the loop goes on.
  have hrests : ∀ j, (shrunk fb)^[j] fb.len < UINT_RANGE ∧
      ∃ i, (shrunk fb)^[j] fb.len % slowSize fb = residue fb i := by
    intro j
    induction j with
    | zero =>
        refine ⟨h.len_lt, 0, ?_⟩
        rw [Function.iterate_zero_apply, residue, Nat.zero_mul, Nat.add_zero]
    | succ j ih =>
        obtain ⟨hlt, i, hi⟩ := ih
        rw [Function.iterate_succ_apply']
        generalize (shrunk fb)^[j] fb.len = x at *
        have habove : bound fb < x := by
          have := hbound i
          rw [← hi] at this
          exact this.trans_le (Nat.mod_le _ _)
        refine ⟨shrunk_lt fb x hlt, ?_⟩
        by_cases hsub : slowSize fb ≤ x
        · exact ⟨i, by rw [shrunk_of_le hlt habove hsub, mod_of_subtracted hsub, hi]⟩
        · refine ⟨i + 1, ?_⟩
          rw [shrunk_of_lt h habove (Nat.not_le.mp hsub), ← residue_succ h hi,
            Nat.mod_eq_of_lt (Nat.not_le.mp hsub)]
  obtain ⟨hlt, i, hi⟩ := hrests k
  have hrest := hbound i
  rw [← hi] at hrest
  exact not_shrinkStops h hlt hrest hk.stops

/-- If they do, then the loop ends, and where. -/
theorem exists_shrinksTo (h : Ranges fb) (hused : fb.used < fb.len)
    (hbefore : ∀ j < i, bound fb < residue fb j) (hrest : residue fb i ≤ bound fb) :
    ∃ newlen, ShrinksTo fb newlen ∧
      (newlen ≤ fb.len ∨ i ≠ 0 ∧ fb.len < slowSize fb ∧ residue fb i ≤ fb.used) ∧
      (i ≠ 0 → fb.len < slowSize fb → residue fb i ≤ fb.used →
        newlen = slowSize fb + residue fb i) := by
  obtain ⟨m, x, hm, hx, hmod, hgo, hfirst, hround⟩ := exists_round h i hbefore
  have hslow := h.slowSize_lt
  have hxused : fb.used < x := by
    by_cases hi : i = 0
    · rw [hfirst hi, Function.iterate_zero_apply] at hm
      omega
    · obtain ⟨r, hr, -, rfl⟩ := hround hi
      have := (bound_le hr).2.2
      omega
  obtain ⟨k, hk, hends⟩ := descends_of_le x hx hxused (hmod.le.trans hrest)
  have hiterate : (shrunk fb)^[k + m] fb.len = (shrunk fb)^[k] x := by
    rw [Function.iterate_add_apply, hm]
  have hstops : StopsAfter (ShrinkStops fb) (shrunk fb) fb.len (k + m) := by
    rw [stopsAfter_add_iff hgo, hm]
    exact hk
  refine ⟨(shrunk fb)^[k] x, ⟨k + m, hstops, hiterate⟩, ?_⟩
  generalize (shrunk fb)^[k] x = y at *
  obtain ⟨hfit, hle, hend⟩ := hends
  by_cases hi : i = 0
  · rw [hfirst hi, Function.iterate_zero_apply] at hm
    exact ⟨Or.inl (by omega), fun hne => absurd hi hne⟩
  have hlarge : bound fb < fb.len := by
    have hzero := hbefore 0 (Nat.pos_of_ne_zero hi)
    rw [residue, Nat.zero_mul, Nat.add_zero] at hzero
    exact hzero.trans_le (Nat.mod_le _ _)
  have hlast : bound fb < x := by
    obtain ⟨r, hr, -, rfl⟩ := hround hi
    omega
  by_cases hsub : slowSize fb ≤ fb.len
  · -- The rest of the length before has no room for the content either.
    have hzero := hbefore 0 (Nat.pos_of_ne_zero hi)
    rw [residue, Nat.zero_mul, Nat.add_zero] at hzero
    have hused₀ := (bound_le hzero).2.2
    have hfit₀ : fb.len % slowSize fb + slowSize fb ≤ fb.len := by
      have := Nat.mod_le (fb.len - slowSize fb) (slowSize fb)
      rw [mod_of_subtracted hsub] at this
      omega
    refine ⟨Or.inl ?_, fun _ hlt => absurd hlt (Nat.not_lt.mpr hsub)⟩
    rcases hend with ⟨hsmall, -⟩ | ⟨-, -, -, hnext⟩
    · omega
    · omega
  · have hlt := Nat.not_le.mp hsub
    rcases hend with ⟨hsmall, hwhole | ⟨v, hv, hvused, hvmod⟩⟩ | ⟨-, hsame, hge, hnext⟩
    · omega
    · rw [Nat.mod_eq_of_lt (by omega), hmod] at hvmod
      refine ⟨Or.inl (by omega), fun _ _ hle' => ?_⟩
      omega
    · have hrest' : y - slowSize fb = residue fb i := by
        rw [← hmod, ← hsame, ← mod_of_subtracted hge, Nat.mod_eq_of_lt]
        have := (bound_le hlarge).2.2
        omega
      exact ⟨Or.inr ⟨hi, hlt, by omega⟩, fun _ _ _ => by omega⟩

theorem ShrinkEnds.first (h : ShrinkEnds fb) :
    ∃ i, (∀ j < i, bound fb < residue fb j) ∧ residue fb i ≤ bound fb := by
  classical
  exact ⟨Nat.find h, fun j hj => Nat.not_le.mp (Nat.find_min h hj), Nat.find_spec h⟩

/-! ## The storage -/

theorem compactSkipped_backed (h : Backed fb) :
    ∃ data, compactSkipped fb = some { fb with data := data, skip := 0 } ∧
      (data.getD []).length = (cells fb).length ∧ data.isSome = fb.data.isSome ∧
      SameContent fb { fb with data := data, skip := 0 } ∧
      (fb.used ≠ 0 → behind { fb with data := data, skip := 0 } = behind fb) := by
  by_cases hskip : fb.skip = 0
  · have hsame : { fb with data := fb.data, skip := 0 } = fb := by
      rw [← hskip]
    refine ⟨fb.data, ?_, rfl, rfl, ?_⟩
    · rw [compactSkipped, if_neg (not_not.mpr hskip), hsame]
    · rw [hsame]
      exact ⟨⟨rfl, rfl⟩, fun _ => rfl⟩
  rcases h.storage with ⟨-, -, hzero⟩ | ⟨cs, hdata, hcells, hinside, -⟩
  · exact absurd hzero hskip
  obtain ⟨cs', hcompact, hlen, hcontents, hbehind, -⟩ := compact_backed h hdata
  refine ⟨some cs', (if_pos hskip).trans hcompact, ?_, ?_, ⟨rfl, ?_⟩, ?_⟩
  · rw [Option.getD_some, hlen, hcells]
  · rw [hdata]
    rfl
  · rw [← hcontents]
    rfl
  · intro hused
    rw [if_neg hused] at hbehind
    rw [← hbehind]
    show cs'[0 + fb.used]? = _
    rw [Nat.zero_add]

theorem compactSkipped_keeps (h : Backed fb) {data : Storage UInt8}
    (hlen : (data.getD []).length = (cells fb).length) (hsome : data.isSome = fb.data.isSome) :
    Backed { fb with data := data, skip := 0 } where
  ranges := ⟨h.ranges.len_lt, h.ranges.maxlen_lt, h.ranges.minlen_lt,
    h.ranges.fastgrowsize_lt, h.ranges.slowgrowsize_lt⟩
  cells_le := hlen.trans_le h.cells_le
  inside := by
    intro hdata
    have := h.inside (hsome.symm.trans hdata)
    show 0 + fb.used < (data.getD []).length
    omega
  empty := by
    intro hdata
    have hnone : fb.data = none := by
      rw [← Option.not_isSome_iff_eq_none, ← hsome, Option.not_isSome_iff_eq_none]
      exact hdata
    exact ⟨(h.empty hnone).1, rfl⟩

theorem with_zero (hlen : fb.len = 0) (hskip : fb.skip = 0) :
    { fb with len := 0, skip := 0 } = fb := by
  cases fb
  dsimp only at hlen hskip
  rw [hlen, hskip]

theorem contents_eq_nil (h : fb.used = 0) : contents fb = [] := by
  rw [contents, h, List.take_zero]

theorem fbufShrink_empty (alloc : ℕ → Bool) (h : Backed fb) (hused : fb.used = 0) :
    ∃ data, fbufShrink alloc fb = some ({ fb with data := data, len := 0, skip := 0 }, 0) ∧
      (fb.len ≠ 0 → data = none) ∧ (fb.len = 0 → data = fb.data) := by
  by_cases hlen : fb.len = 0
  · have hskip : fb.skip = 0 := by
      have := h.le
      omega
    refine ⟨fb.data, ?_, fun hne => absurd hlen hne, fun _ => rfl⟩
    rw [fbufShrink, compactSkipped, if_neg (not_not.mpr hskip)]
    simp only [Option.bind_eq_bind, Option.bind_some]
    rw [if_pos hused, shrinkLen_zero, Option.bind_some, shrinkTo, if_pos hlen.symm, hlen,
      with_zero hlen hskip]
  · obtain ⟨data, hcompact, -, -, -, -⟩ := compactSkipped_backed h
    refine ⟨none, ?_, fun _ => rfl, fun hzero => absurd hzero hlen⟩
    rw [fbufShrink, hcompact]
    simp only [Option.bind_eq_bind, Option.bind_some]
    rw [if_pos hused, shrinkLen_zero, Option.bind_some, shrinkTo, if_neg (Ne.symm hlen),
      if_pos rfl]

/-- The length a buffer has after it was shrunk to `newlen`. -/
def shrunkLen (alloc : ℕ → Bool) (fb : FBuf) (newlen : ℕ) : ℕ :=
  if alloc newlen then newlen else fb.len

/-- Shrinking to a length that has room for the content and the byte behind it. -/
theorem fbufShrink_stops (alloc : ℕ → Bool) (h : Backed fb) (hused : fb.used ≠ 0)
    (hto : ShrinksTo fb newlen) :
    ∃ data, fbufShrink alloc fb = some ({ fb with
        data := data
        len := shrunkLen alloc fb newlen
        skip := 0 }, shrunkLen alloc fb newlen) ∧
      Backed { fb with data := data, len := shrunkLen alloc fb newlen, skip := 0 } ∧
      SameContent fb { fb with data := data, len := shrunkLen alloc fb newlen, skip := 0 } ∧
      behind { fb with data := data, len := shrunkLen alloc fb newlen, skip := 0 } = behind fb ∧
      (Sound fb →
        Sound { fb with data := data, len := shrunkLen alloc fb newlen, skip := 0 }) := by
  have hsum : fb.used + 1 < UINT_RANGE := by
    have := h.used_lt
    omega
  have hfits := hto.fits (h.used_lt_len hused)
  have hlt := hto.lt h.ranges
  obtain ⟨data, hcompact, hlen, hsome, hsame, hbehind⟩ := compactSkipped_backed h
  have hkeeps := compactSkipped_keeps h hlen hsome
  have hloop : shrinkLen { fb with data := data, skip := 0 } UINT_RANGE fb.len = some newlen :=
    (shrinkLen_eq_some_iff hkeeps.ranges hsum).mpr hto
  rw [fbufShrink, hcompact]
  simp only [Option.bind_eq_bind, Option.bind_some]
  rw [if_neg hused, hloop]
  simp only [Option.bind_some]
  rw [shrinkTo]
  by_cases hstay : newlen = fb.len
  · have hlen' : shrunkLen alloc fb newlen = fb.len := by
      rw [shrunkLen, hstay, ite_self]
    rw [if_pos hstay, hlen']
    exact ⟨data, rfl, hkeeps, hsame, hbehind hused, fun hs => ⟨hkeeps, hlen.trans hs.whole⟩⟩
  have hne : ¬ newlen = 0 := by omega
  rw [if_neg hstay, if_neg hne]
  cases halloc : alloc newlen with
  | false =>
      have hlen' : shrunkLen alloc fb newlen = fb.len := by
        rw [shrunkLen, halloc]
        exact if_neg Bool.false_ne_true
      rw [hlen']
      exact ⟨data, rfl, hkeeps, hsame, hbehind hused, fun hs => ⟨hkeeps, hlen.trans hs.whole⟩⟩
  | true =>
      have hlen' : shrunkLen alloc fb newlen = newlen := by
        rw [shrunkLen, halloc]
        exact if_pos rfl
      obtain ⟨cs, rfl⟩ : ∃ cs, data = some cs := by
        rcases hkeeps.storage with ⟨-, hzero, -⟩ | ⟨cs, hcs, -⟩
        · exact absurd hzero hused
        · exact ⟨cs, hcs⟩
      have hinside : fb.used < cs.length := by
        have := hkeeps.inside rfl
        rwa [Nat.zero_add] at this
      rw [hlen']
      have hwhole := length_resize (some cs) newlen
      have hbacked : Backed { fb with data := resize (some cs) newlen, len := newlen, skip := 0 } := by
        refine backed_of_inside ⟨hlt, h.ranges.maxlen_lt, h.ranges.minlen_lt,
          h.ranges.fastgrowsize_lt, h.ranges.slowgrowsize_lt⟩ hwhole.le ?_
        show 0 + fb.used < ((resize (some cs) newlen).getD []).length
        omega
      refine ⟨resize (some cs) newlen, congrArg some (if_pos rfl), hbacked, ⟨rfl, ?_⟩, ?_, fun _ =>
        ⟨hbacked, hwhole⟩⟩
      · rw [← hsame.contents]
        exact take_resize hfits.le hinside.le
      · rw [← hbehind hused]
        show ((resize (some cs) newlen).getD [])[0 + fb.used]? = cs[0 + fb.used]?
        exact getElem?_resize (by omega) (by omega)

theorem ShrinkEnds.shrinksTo (h : ShrinkEnds fb) (hranges : Ranges fb)
    (hused : fb.used < fb.len) : ∃ newlen, ShrinksTo fb newlen := by
  obtain ⟨i, hbefore, hrest⟩ := h.first
  obtain ⟨newlen, hto, -⟩ := exists_shrinksTo hranges hused hbefore hrest
  exact ⟨newlen, hto⟩

theorem shrinksTo_of_fbufShrink (h : Backed fb) (hused : fb.used ≠ 0) {r : FBuf × ℕ}
    (hrun : fbufShrink alloc fb = some r) : ∃ newlen, ShrinksTo fb newlen := by
  have hsum : fb.used + 1 < UINT_RANGE := by
    have := h.used_lt
    omega
  obtain ⟨data, hcompact, hlen, hsome, -⟩ := compactSkipped_backed h
  rw [fbufShrink, hcompact] at hrun
  simp only [Option.bind_eq_bind, Option.bind_some] at hrun
  rw [if_neg hused] at hrun
  obtain ⟨newlen, hloop, -⟩ := Option.bind_eq_some_iff.mp hrun
  exact ⟨newlen,
    (shrinkLen_eq_some_iff (compactSkipped_keeps h hlen hsome).ranges hsum).mp hloop⟩

end FBuf
end LibHL
