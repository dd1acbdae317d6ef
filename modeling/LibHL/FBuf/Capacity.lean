import LibHL.FBuf.Reachable
import LibHL.FBuf.Growing

/-!
# Growing and shrinking

What `fbuf_extend` and `fbuf_shrink` promise of every reachable buffer, and when they keep it.
A call that fails should not touch the buffer, a call that succeeds should have made room, and
a buffer should not become longer when it is shrunk.
-/

namespace LibHL
namespace FBuf

open Storage Circular Loop

variable {alloc : ℕ → Bool} {fb : FBuf} {newlen : ℕ}

/-! ## Failures -/

/-- A call that returns zero leaves the buffer as it is. -/
def LeavesUntouched (alloc : ℕ → Bool) (fb : FBuf) (newlen : ℕ) : Prop :=
  ∀ fb', fbufExtend alloc fb newlen = some (fb', 0) → fb' = fb

/-- A failed call does so exactly if it does not get as far as an allocation that fails. -/
theorem leavesUntouched_iff (hreach : Reachable AnyMemory fb) (newlen : ℕ) :
    LeavesUntouched alloc fb newlen ↔
      uadd newlen 1 ≤ fb.len ∨ Refuses fb (uadd newlen 1) ∨
        ∀ size, Requests fb (uadd newlen 1) size → alloc size = true := by
  have h := hreach.backed
  constructor
  · intro huntouched
    by_cases hfit : uadd newlen 1 ≤ fb.len
    · exact Or.inl hfit
    by_cases hover : Refuses fb (uadd newlen 1)
    · exact Or.inr (Or.inl hover)
    refine Or.inr (Or.inr ?_)
    intro size hrequests
    cases halloc : alloc size with
    | true => rfl
    | false =>
        have hrun : fbufExtend alloc fb newlen = _ :=
          fbufExtend_requests ((Nat.le_add_right _ _).trans h.le) h.ranges
            (Nat.not_le.mp hfit) hover hrequests
        rw [reallocate_fails halloc] at hrun
        have hlen : size = fb.len := congrArg FBuf.len (huntouched _ hrun)
        have hle := (hrequests.le h.ranges hover).1
        omega
  · intro hmeets fb' hrun
    generalize hr : (0 : ℕ) = r at hrun
    cases fbufExtend_cases h hrun with
    | room hroom => rfl
    | compacted hmore hfit hlen hcontents hbehind =>
        have := h.le
        omega
    | refused hmore hover => rfl
    | failed hmore hfits hrequests halloc =>
        rcases hmeets with hle | hover | hmemory
        · omega
        · exact absurd hover hfits
        · rw [hmemory _ hrequests] at halloc
          cases halloc
    | reallocated hmore hfits hrequests halloc hused hlen hcontents hbehind => omega

/-- Without memory, a new buffer has a length afterwards. -/
theorem failed_extend_sets_len :
    ¬ LeavesUntouched (fun _ => false) (fbufCreate FBUF_MAXLEN_NONE) 10 := by
  intro huntouched
  have hlen := congrArg FBuf.len (huntouched { fbufCreate FBUF_MAXLEN_NONE with len := 128 } rfl)
  exact absurd hlen (by decide)

/-- A call that the limit refuses leaves the buffer alone, one whose allocation is refused does
not. -/
theorem leavesUntouched_iff_refused :
    fbufExtend (fun _ => false) (fbufCreate 3) 10 = some (fbufCreate 3, 0) ∧
      LeavesUntouched (fun _ => false) (fbufCreate 3) 10 ∧
      ¬ LeavesUntouched (fun _ => false) (fbufCreate 3) 2 := by
  have hnew : Reachable AnyMemory (fbufCreate 3) := .create (by decide)
  refine ⟨rfl, (leavesUntouched_iff hnew 10).mpr (Or.inr (Or.inl (by decide))), ?_⟩
  rw [leavesUntouched_iff hnew 2]
  rintro (hfit | hover | hmemory)
  · exact absurd hfit (by decide)
  · exact absurd hover (by decide)
  · have hrequests : Requests (fbufCreate 3) (uadd 2 1) 4 := by
      refine ⟨1, ⟨by decide, fun j hj => ?_⟩, rfl⟩
      obtain rfl : j = 0 := Nat.lt_one_iff.mp hj
      decide
    exact Bool.false_ne_true (hmemory 4 hrequests)

/-! ## Room -/

/-- A call comes to an end, and if it does not return zero, then there is room for `newlen`
bytes and the terminator. -/
def MakesRoom (alloc : ℕ → Bool) (fb : FBuf) (newlen : ℕ) : Prop :=
  ∃ fb' r, fbufExtend alloc fb newlen = some (fb', r) ∧
    (r ≠ 0 → fb'.skip + newlen + 1 ≤ fb'.len)

theorem makesRoom_iff_growsTo (hreach : Reachable AnyMemory fb) (hnewlen : newlen < UINT_RANGE) :
    MakesRoom alloc fb newlen ↔
      if newlen + 1 = UINT_RANGE then fb.len = 0
      else newlen + 1 ≤ fb.len ∨ Refuses fb (newlen + 1) ∨ GrowsTo fb (newlen + 1) := by
  have h := hreach.backed
  have hrange : UINT_RANGE = 2 ^ 32 := rfl
  have hskip : fb.skip ≤ fb.len := (Nat.le_add_right _ _).trans h.le
  have hlen := h.ranges.len_lt
  by_cases hround : newlen + 1 = UINT_RANGE
  · have hzero : uadd newlen 1 = 0 := by
      rw [uadd, hround, Nat.mod_self]
    have hroom : fb.skip + uadd newlen 1 ≤ fb.len := by omega
    rw [if_pos hround, MakesRoom, fbufExtend_room hskip h.ranges hroom]
    constructor
    · rintro ⟨fb', r, heq, hmakes⟩
      cases heq
      by_contra hne
      have := hmakes hne
      omega
    · exact fun hzero => ⟨fb, fb.len, rfl, fun hne => absurd hzero hne⟩
  have hsum : uadd newlen 1 = newlen + 1 := uadd_of_lt (by omega)
  rw [if_neg hround, ← hsum, ← isSome_fbufExtend_iff alloc h, Option.isSome_iff_exists]
  constructor
  · rintro ⟨fb', r, hrun, -⟩
    exact ⟨(fb', r), hrun⟩
  · rintro ⟨⟨fb', r⟩, hrun⟩
    refine ⟨fb', r, hrun, ?_⟩
    intro hne
    have := (fbufExtend_cases h hrun).room_of_ne h hne
    omega

/-- It does whenever a step of the slow growth size from there stays within the range. -/
theorem makesRoom_of_le (hreach : Reachable AnyMemory fb)
    (hle : newlen + 1 + slowSize fb ≤ UINT_RANGE) : MakesRoom alloc fb newlen := by
  have hslow := slowSize_pos fb
  rw [makesRoom_iff_growsTo hreach (by omega), if_neg (by omega),
    growsTo_iff_attains hreach.backed.ranges]
  exact Or.inr (Or.inr (attains_of_le hle))

/-- It does exactly if the number of bytes does not go round with the terminator, and the
remainders of the lengths say that one of them is large enough. -/
theorem makesRoom_iff (hreach : Reachable AnyMemory fb) (hnewlen : newlen < UINT_RANGE) :
    MakesRoom alloc fb newlen ↔
      if newlen + 1 = UINT_RANGE then fb.len = 0
      else newlen + 1 ≤ fb.len ∨ Refuses fb (newlen + 1) ∨ Attains fb (newlen + 1) := by
  rw [← growsTo_iff_attains hreach.backed.ranges]
  exact makesRoom_iff_growsTo hreach hnewlen

/-- A new buffer for at most three bytes, extended by two. -/
def extended : FBuf :=
  { fbufCreate 3 with data := some [some 0, none, none, none], len := 4 }

theorem extended_eq : fbufExtend (fun _ => true) (fbufCreate 3) 2 = some (extended, 4) := rfl

/-- With the terminator, the largest number goes round to zero. -/
theorem extend_goes_round :
    (∃ r, fbufExtend (fun _ => true) (fbufCreate 3) 2 = some (extended, r)) ∧
      ¬ MakesRoom (fun _ => true) extended UINT_MAX := by
  refine ⟨⟨4, extended_eq⟩, ?_⟩
  rintro ⟨fb', r, hrun, hmakes⟩
  have hsame : fbufExtend (fun _ => true) extended UINT_MAX = some (extended, 4) := rfl
  rw [hsame] at hrun
  cases hrun
  exact absurd (hmakes (by decide)) (by decide)

/-- A new buffer that grows by half the range. -/
def halfSteps : FBuf :=
  { fbufCreate FBUF_MAXLEN_NONE with fastgrowsize := 2 ^ 31, slowgrowsize := 2 ^ 31 }

theorem reachable_halfSteps : Reachable AnyMemory halfSteps := by
  have hnew : Reachable AnyMemory (fbufCreate FBUF_MAXLEN_NONE) := .create (by decide)
  have hsize : 2 ^ 31 < UINT_RANGE := by decide
  exact (hnew.call (fun _ => true) (.fastgrowsize (2 ^ 31)) trivial hsize rfl).call (fun _ => true)
    (.slowgrowsize (2 ^ 31)) trivial hsize rfl

/-- Its lengths are zero, the minimal one and the half, again and again. -/
theorem not_attains_halfSteps : ¬ Attains halfSteps (2 ^ 31 + 1) := by
  have hfirst : firstSlow halfSteps halfSteps.len = 2 ^ 31 := by decide
  have hleft : remainder halfSteps (2 ^ 31) 1 = 0 := by decide
  have hzero : ∀ i, GoesRound halfSteps (2 ^ 31) i → i = 0 := by
    intro i hgo
    by_contra hne
    have hge := hgo 1 Nat.one_pos (Nat.one_le_iff_ne_zero.mpr hne)
    rw [hleft] at hge
    exact absurd hge (by decide)
  have htops : ¬ Tops halfSteps (2 ^ 31) (2 ^ 31 + 1) := by
    rintro ⟨i, hgo, hle⟩
    rw [hzero i hgo, Nat.zero_add, hleft] at hle
    have hrange : UINT_RANGE = 2 ^ 31 + 2 ^ 31 := rfl
    have hslow : slowSize halfSteps = 2 ^ 31 := rfl
    omega
  have hre : ∀ z, Restarts halfSteps (2 ^ 31) z → z = 2 ^ 31 := by
    rintro z ⟨i, hgo, -, hz⟩
    rw [hz, hzero i hgo, Nat.zero_add, hleft]
    decide
  rw [Attains, hfirst]
  rintro (hlast | ⟨y, hy, hlast | ⟨z, hz, hlast⟩⟩)
  · exact htops hlast
  · exact htops (hre y hy ▸ hlast)
  · rw [hre y hy] at hz
    exact htops (hre z hz ▸ hlast)

/-- A small number is reached, and one above the half never. -/
theorem makesRoom_iff_halfSteps :
    MakesRoom (fun _ => true) halfSteps 10 ∧ ¬ MakesRoom (fun _ => true) halfSteps (2 ^ 31) := by
  constructor
  · rw [makesRoom_iff reachable_halfSteps (by decide), if_neg (by decide)]
    exact Or.inr (Or.inr (attains_of_le (by decide)))
  · rw [makesRoom_iff reachable_halfSteps (by decide), if_neg (by decide)]
    rintro (hfit | hover | hattains)
    · exact absurd hfit (by decide)
    · exact absurd hover (by decide)
    · exact not_attains_halfSteps hattains

/-! ## When shrinking is safe -/

/-- `fbuf_shrink` comes to an end, keeps the content and its terminator, and returns the new
length, which is not above the old one and has room for the content, or is zero if there is
none. -/
def ShrinksSafely (alloc : ℕ → Bool) (fb : FBuf) : Prop :=
  ∃ fb' r, fbufShrink alloc fb = some (fb', r) ∧ fb'.len = r ∧ SameContent fb fb' ∧
    (Terminated fb → Terminated fb') ∧ r ≤ fb.len ∧
    (fb.used + 1 ≤ r ∨ fb.used = 0 ∧ r = 0)

/-- It does exactly if the buffer is empty, or no length that has gone round is allocated. -/
theorem shrinksSafely_iff (hreach : Reachable AnyMemory fb) :
    ShrinksSafely alloc fb ↔ fb.used = 0 ∨ ShrinksDown alloc fb := by
  have h := hreach.backed
  have hranges := h.ranges
  by_cases hused : fb.used = 0
  · refine iff_of_true ?_ (Or.inl hused)
    obtain ⟨data, hrun, hfree, hkeep⟩ := fbufShrink_empty alloc h hused
    refine ⟨_, 0, hrun, rfl, ⟨rfl, ?_⟩, ?_, Nat.zero_le _, Or.inr ⟨hused, rfl⟩⟩
    · rw [contents_eq_nil hused]
      exact contents_eq_nil hused
    · intro hterm hdata
      by_cases hlen : fb.len = 0
      · have hskip : fb.skip = 0 := by
          have := h.le
          omega
        rw [hkeep hlen, with_zero hlen hskip] at hdata ⊢
        exact hterm hdata
      · rw [hfree hlen] at hdata
        cases hdata
  have hlt := h.used_lt_len hused
  constructor
  · rintro ⟨fb', r, hrun, hlen, -, -, hle, hroom⟩
    right
    obtain ⟨newlen, hto⟩ := shrinksTo_of_fbufShrink h hused hrun
    obtain ⟨i, hbefore, hrest⟩ := (hto.shrinkEnds hranges).first
    obtain ⟨newlen', hto', -, hgrown⟩ := exists_shrinksTo hranges hlt hbefore hrest
    rw [hto'.unique hto] at hgrown
    refine ⟨i, hbefore, hrest, ?_⟩
    by_contra hbad
    simp only [not_or, Bool.not_eq_false, not_le, not_lt] at hbad
    obtain ⟨hi, hsmall, hno, halloc⟩ := hbad
    have hsize := hgrown hi hsmall hno
    obtain ⟨data, hrun', -⟩ := fbufShrink_stops alloc h hused hto
    rw [hrun] at hrun'
    have hr : r = newlen := by
      have := congrArg Prod.snd (Option.some.inj hrun')
      rw [shrunkLen, hsize, halloc, if_pos rfl] at this
      rw [hsize]
      exact this
    omega
  · rintro (hzero | ⟨i, hbefore, hrest, hgood⟩)
    · exact absurd hzero hused
    obtain ⟨newlen, hto, hcases, hgrown⟩ := exists_shrinksTo hranges hlt hbefore hrest
    have hfits := hto.fits hlt
    obtain ⟨data, hrun, hbacked, hsame, hbehind, -⟩ := fbufShrink_stops alloc h hused hto
    refine ⟨_, _, hrun, rfl, hsame, ?_, ?_⟩
    · intro hterm hdata
      refine ⟨hbacked.covers hdata, ?_⟩
      rw [hbehind]
      exact (hterm (h.isSome_of_used hused)).2
    rw [shrunkLen]
    by_cases halloc : alloc newlen = true
    · rw [if_pos halloc]
      rcases hcases with hle | ⟨hi, hsmall, hno⟩
      · exact ⟨hle, Or.inl hfits⟩
      · rcases hgood with hzero | hge | hrest' | hfail
        · exact absurd hzero hi
        · omega
        · omega
        · rw [hgrown hi hsmall hno, hfail] at halloc
          cases halloc
    · rw [if_neg halloc]
      exact ⟨le_rfl, Or.inl hlt⟩

/-- A buffer with a slow growth size above the fast one, and small sizes throughout. -/
def steep : FBuf :=
  (fbufSlowgrowsize (fbufFastgrowsize (fbufMinlen (fun _ => true) (fbufCreate 6) 2).1 4).1 16).1

/-- It holds five bytes, in a storage that the limit has capped. -/
def steepFull : FBuf :=
  { steep with
    data := some [some 97, some 98, some 99, some 100, some 101, some 0, none]
    len := 7
    used := 5 }

theorem steepFull_eq :
    fbufAddBinary (fun _ => true) steep ([97, 98, 99, 100, 101].map some) =
      some (steepFull, 5) := rfl

theorem steepFull_reachable : Reachable AnyMemory steepFull := by
  have hminlen : Keeps (fun _ => true) (fbufCreate 6) (.minlen 2) :=
    ⟨by decide, fun _ hlen _ => absurd hlen (Nat.not_lt_zero 2)⟩
  have hfast : (4 : ℕ) < UINT_RANGE := by decide
  have hslow : (16 : ℕ) < UINT_RANGE := by decide
  have hsteep : Reachable AnyMemory steep :=
    (((Reachable.create (by decide)).call (fun _ => true) (.minlen 2) trivial hminlen rfl).call
      (fun _ => true) (.fastgrowsize 4) trivial hfast rfl).call
      (fun _ => true) (.slowgrowsize 16) trivial hslow rfl
  exact hsteep.call (fun _ => true) (.addBinary ([97, 98, 99, 100, 101].map some)) trivial trivial
    (congrArg (Option.map Prod.fst) steepFull_eq)

/-- Its length goes round to itself for ever. -/
theorem shrink_never_ends :
    (∃ r, fbufAddBinary (fun _ => true) steep ([97, 98, 99, 100, 101].map some) =
      some (steepFull, r)) ∧ ¬ ShrinksSafely (fun _ => true) steepFull := by
  refine ⟨⟨5, steepFull_eq⟩, ?_⟩
  rintro ⟨fb', r, hrun, -⟩
  have hbacked := steepFull_reachable.backed
  obtain ⟨newlen, hto⟩ := shrinksTo_of_fbufShrink hbacked (by decide) hrun
  obtain ⟨i, hi⟩ := hto.shrinkEnds hbacked.ranges
  -- The range is a multiple of the slow growth size.
  have hbound : bound steepFull = 5 := rfl
  have hresidue : residue steepFull i = (7 + i * 2 ^ 32) % 16 := rfl
  omega

theorem shrinksSafely_iff_steepFull :
    ShrinksSafely (fun _ => true) steepFull ↔
      steepFull.used = 0 ∨ ShrinksDown (fun _ => true) steepFull :=
  shrinksSafely_iff steepFull_reachable

end FBuf
end LibHL
