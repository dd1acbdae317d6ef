import LibHL.FBuf.Extending

/-!
# How far the lengths grow

`fbuf_extend` goes from no length to the minimal one, from a small length to the fast growth
size, and from there on by steps of the slow growth size, in `unsigned int`s.  A length that goes
round becomes what is left of it modulo the slow growth size, less the range once for every
round.  So which lengths are tried can be told from the length and the three sizes.
-/

namespace LibHL
namespace FBuf

open Loop

variable {fb : FBuf} {x y z N i : ℕ}

/-- The length of a buffer that had none. -/
def minSize (fb : FBuf) : ℕ := if fb.minlen ≠ 0 then fb.minlen else FBUF_MINLEN

/-- Where the steps of the slow growth size start. -/
def firstSlow (fb : FBuf) (x : ℕ) : ℕ :=
  if x = 0 then max (minSize fb) (fastSize fb) else max x (fastSize fb)

/-- What is left of `y` when it has gone round `i` times. -/
def remainder (fb : FBuf) (y i : ℕ) : ℕ := (((y : ℤ) - i * UINT_RANGE) % slowSize fb).toNat

/-- Nothing that is left in the first `i` rounds is below the fast growth size. -/
def GoesRound (fb : FBuf) (y i : ℕ) : Prop :=
  ∀ j, 0 < j → j ≤ i → fastSize fb ≤ remainder fb y j

/-- In one of these rounds the last length before the end of the range is at least `N`. -/
def Tops (fb : FBuf) (y N : ℕ) : Prop :=
  ∃ i, GoesRound fb y i ∧ N + slowSize fb ≤ UINT_RANGE + remainder fb y (i + 1)

/-- The rounds come to a length below the fast growth size, and start again at `z`. -/
def Restarts (fb : FBuf) (y z : ℕ) : Prop :=
  ∃ i, GoesRound fb y i ∧ remainder fb y (i + 1) < fastSize fb ∧
    z = firstSlow fb (remainder fb y (i + 1))

/-- The rounds that start at the length of the buffer come to one of at least `N`, or those
after a restart, of which two are enough: they start at the fast growth size, or at the minimal
length if that is greater. -/
def Attains (fb : FBuf) (N : ℕ) : Prop :=
  Tops fb (firstSlow fb fb.len) N ∨
    ∃ y, Restarts fb (firstSlow fb fb.len) y ∧
      (Tops fb y N ∨ ∃ z, Restarts fb y z ∧ Tops fb z N)

theorem fastSize_pos (fb : FBuf) : 0 < fastSize fb := by
  rw [fastSize]
  split
  · omega
  · decide

theorem minSize_pos (fb : FBuf) : 0 < minSize fb := by
  rw [minSize]
  split
  · omega
  · decide

theorem Ranges.minSize_lt (h : Ranges fb) : minSize fb < UINT_RANGE := by
  rw [minSize]
  split
  · exact h.minlen_lt
  · decide

/-! ## The next length -/

theorem nextLen_zero (fb : FBuf) : nextLen fb 0 = minSize fb := rfl

theorem nextLen_of_lt (hx : x ≠ 0) (hlt : x < fastSize fb) : nextLen fb x = fastSize fb := by
  rw [nextLen, if_neg hx, if_pos hlt]

theorem nextLen_of_ge (hge : fastSize fb ≤ x) : nextLen fb x = uadd x (slowSize fb) := by
  have hpos := fastSize_pos fb
  rw [nextLen, if_neg (by omega), if_neg (Nat.not_lt.mpr hge)]

theorem firstSlow_of_ge (hge : fastSize fb ≤ x) : firstSlow fb x = x := by
  have hpos := fastSize_pos fb
  rw [firstSlow, if_neg (by omega), max_eq_left hge]

theorem fastSize_le_firstSlow (fb : FBuf) (x : ℕ) : fastSize fb ≤ firstSlow fb x := by
  rw [firstSlow]
  split
  · exact le_max_right _ _
  · exact le_max_right _ _

theorem le_firstSlow (fb : FBuf) (x : ℕ) : x ≤ firstSlow fb x := by
  rw [firstSlow]
  split
  · omega
  · exact le_max_left _ _

theorem Ranges.firstSlow_lt (h : Ranges fb) (hx : x < UINT_RANGE) :
    firstSlow fb x < UINT_RANGE := by
  rw [firstSlow]
  split
  · exact max_lt h.minSize_lt h.fastSize_lt
  · exact max_lt hx h.fastSize_lt

theorem firstSlow_nextLen (hlt : x < fastSize fb) :
    firstSlow fb (nextLen fb x) = firstSlow fb x := by
  have hpos := fastSize_pos fb
  by_cases hx : x = 0
  · have hmin := minSize_pos fb
    rw [hx, nextLen_zero, firstSlow, firstSlow, if_neg (by omega), if_pos rfl]
  · rw [nextLen_of_lt hx hlt, firstSlow_of_ge le_rfl, firstSlow, if_neg hx,
      max_eq_right hlt.le]

/-- A small length leads there in at most two steps. -/
theorem exists_firstSlow (fb : FBuf) (x : ℕ) : ∃ k, (nextLen fb)^[k] x = firstSlow fb x := by
  by_cases hge : fastSize fb ≤ x
  · exact ⟨0, (firstSlow_of_ge hge).symm⟩
  have hlt := Nat.not_le.mp hge
  have hnext := firstSlow_nextLen hlt
  by_cases hge' : fastSize fb ≤ nextLen fb x
  · exact ⟨1, by rw [Function.iterate_one, ← hnext, firstSlow_of_ge hge']⟩
  have hlt' := Nat.not_le.mp hge'
  have hne : nextLen fb x ≠ 0 := by
    by_cases hx : x = 0
    · rw [hx, nextLen_zero]
      exact (minSize_pos fb).ne'
    · rw [nextLen_of_lt hx hlt]
      exact (fastSize_pos fb).ne'
  refine ⟨2, ?_⟩
  show nextLen fb (nextLen fb x) = _
  rw [nextLen_of_lt hne hlt', ← hnext, firstSlow, if_neg hne, max_eq_right hlt'.le]

/-! ## Going round -/

theorem remainder_lt (fb : FBuf) (y i : ℕ) : remainder fb y i < slowSize fb := by
  have hpos := slowSize_pos fb
  have hlt := Int.emod_lt_of_pos ((y : ℤ) - i * UINT_RANGE) (Int.natCast_pos.mpr hpos)
  rw [remainder]
  omega

theorem remainder_cast (fb : FBuf) (y i : ℕ) :
    (remainder fb y i : ℤ) = ((y : ℤ) - i * UINT_RANGE) % slowSize fb := by
  have hpos := slowSize_pos fb
  exact Int.toNat_of_nonneg (Int.emod_nonneg _ (by omega))

theorem remainder_add (fb : FBuf) (y i : ℕ) :
    remainder fb (y + slowSize fb) i = remainder fb y i := by
  have hsum : ((y + slowSize fb : ℕ) : ℤ) - i * UINT_RANGE =
      (y : ℤ) - i * UINT_RANGE + slowSize fb := by
    push_cast
    omega
  rw [remainder, hsum, Int.add_emod_right, remainder]

theorem remainder_remainder (fb : FBuf) (y i j : ℕ) :
    remainder fb (remainder fb y i) j = remainder fb y (i + j) := by
  rw [remainder, remainder_cast, remainder, Int.emod_sub_emod]
  congr 2
  push_cast
  rw [Int.add_mul]
  omega

theorem remainder_one_of_le (h : Ranges fb) (hx : x < UINT_RANGE)
    (hround : UINT_RANGE ≤ x + slowSize fb) :
    remainder fb x 1 = x + slowSize fb - UINT_RANGE := by
  have hslow := h.slowSize_lt
  have hsum : ((x : ℤ) - (1 : ℕ) * UINT_RANGE) % slowSize fb =
      ((x + slowSize fb - UINT_RANGE : ℕ) : ℤ) := by
    rw [← Int.add_emod_right, Int.emod_eq_of_lt (by omega) (by omega)]
    omega
  rw [remainder, hsum]
  exact Int.toNat_natCast _

/-- From the last length before the end of the range the loop goes on with what is left. -/
theorem nextLen_round (h : Ranges fb) (hge : fastSize fb ≤ x) (hx : x < UINT_RANGE)
    (hround : UINT_RANGE ≤ x + slowSize fb) : nextLen fb x = remainder fb x 1 := by
  have hslow := h.slowSize_lt
  rw [nextLen_of_ge hge, remainder_one_of_le h hx hround, uadd, Nat.mod_eq_sub_mod hround]
  exact Nat.mod_eq_of_lt (by omega)

/-- The last length before the end of the range comes after some steps. -/
theorem exists_last (fb : FBuf) : ∀ y < UINT_RANGE, fastSize fb ≤ y →
    ∃ k x, (nextLen fb)^[k] y = x ∧ fastSize fb ≤ x ∧ x < UINT_RANGE ∧
      UINT_RANGE ≤ x + slowSize fb ∧ ∀ i, remainder fb x i = remainder fb y i := by
  intro y
  induction hn : UINT_RANGE - y using Nat.strong_induction_on generalizing y with
  | h n ih =>
      intro hy hge
      by_cases hround : UINT_RANGE ≤ y + slowSize fb
      · exact ⟨0, y, rfl, hge, hy, hround, fun _ => rfl⟩
      have hpos := slowSize_pos fb
      have hnext : nextLen fb y = y + slowSize fb := by
        rw [nextLen_of_ge hge, uadd_of_lt (Nat.not_le.mp hround)]
      obtain ⟨k, x, hk, hrest⟩ := ih (UINT_RANGE - (y + slowSize fb)) (by omega)
        (y + slowSize fb) rfl (Nat.not_le.mp hround) (by omega)
      refine ⟨k + 1, x, ?_, hrest.1, hrest.2.1, hrest.2.2.1, fun i => ?_⟩
      · rw [Function.iterate_succ_apply, hnext, hk]
      · rw [hrest.2.2.2 i, remainder_add]

/-- So does the last length of a later round. -/
theorem exists_lastRound (h : Ranges fb) (hy : y < UINT_RANGE) (hge : fastSize fb ≤ y) :
    ∀ i, GoesRound fb y i → ∃ k x, (nextLen fb)^[k] y = x ∧ fastSize fb ≤ x ∧ x < UINT_RANGE ∧
      UINT_RANGE ≤ x + slowSize fb ∧ ∀ j, remainder fb x j = remainder fb y (i + j) := by
  intro i
  induction i with
  | zero =>
      intro _
      obtain ⟨k, x, hk, hx, hlt, hround, hrest⟩ := exists_last fb y hy hge
      exact ⟨k, x, hk, hx, hlt, hround, fun j => by rw [hrest, Nat.zero_add]⟩
  | succ i ih =>
      intro hgo
      obtain ⟨k, x, hk, hx, hlt, hround, hrest⟩ := ih fun j hj hle => hgo j hj (Nat.le_succ_of_le hle)
      have hnext := nextLen_round h hx hlt hround
      have hleft := hgo (i + 1) (Nat.succ_pos i) le_rfl
      rw [← hrest 1] at hleft
      obtain ⟨m, x', hm, hx', hlt', hround', hrest'⟩ := exists_last fb (remainder fb x 1)
        ((remainder_lt fb x 1).trans h.slowSize_lt) hleft
      refine ⟨m + (k + 1), x', ?_, hx', hlt', hround', fun j => ?_⟩
      · rw [Function.iterate_add_apply, Function.iterate_succ_apply', hk, hnext, hm]
      · rw [hrest' j, remainder_remainder, hrest, Nat.add_assoc]

theorem Tops.exists_le (htops : Tops fb y N) (h : Ranges fb) (hy : y < UINT_RANGE)
    (hge : fastSize fb ≤ y) : ∃ k, N ≤ (nextLen fb)^[k] y := by
  obtain ⟨i, hgo, hle⟩ := htops
  obtain ⟨k, x, hk, -, hlt, hround, hrest⟩ := exists_lastRound h hy hge i hgo
  have hlast := remainder_one_of_le h hlt hround
  rw [← hrest 1, hlast] at hle
  exact ⟨k, by omega⟩

theorem Restarts.exists_eq (hre : Restarts fb y z) (h : Ranges fb) (hy : y < UINT_RANGE)
    (hge : fastSize fb ≤ y) : ∃ k, (nextLen fb)^[k] y = z := by
  obtain ⟨i, hgo, -, rfl⟩ := hre
  obtain ⟨k, x, hk, hx, hlt, hround, hrest⟩ := exists_lastRound h hy hge i hgo
  obtain ⟨m, hm⟩ := exists_firstSlow fb (remainder fb y (i + 1))
  refine ⟨m + (k + 1), ?_⟩
  rw [Function.iterate_add_apply, Function.iterate_succ_apply', hk, nextLen_round h hx hlt hround,
    hrest, hm]

theorem Restarts.bounds (hre : Restarts fb y z) (h : Ranges fb) :
    fastSize fb ≤ z ∧ z < UINT_RANGE := by
  obtain ⟨i, -, -, rfl⟩ := hre
  exact ⟨fastSize_le_firstSlow fb _, h.firstSlow_lt ((remainder_lt fb y _).trans h.slowSize_lt)⟩

/-- There are two lengths at which the rounds start again. -/
theorem Restarts.eq_or_eq (hre : Restarts fb y z) :
    z = fastSize fb ∨ z = max (minSize fb) (fastSize fb) := by
  obtain ⟨i, -, hlt, rfl⟩ := hre
  rw [firstSlow]
  split
  · exact Or.inr rfl
  · exact Or.inl (max_eq_right hlt.le)

/-! ## Whether a length is tried -/

/-- Some restarts after `y` there is a round that comes to at least `N`. -/
def ComesTo (fb : FBuf) (N y : ℕ) : Prop :=
  ∃ z, Relation.ReflTransGen (Restarts fb) y z ∧ Tops fb z N

theorem ComesTo.of_later (hcomes : ComesTo fb N z) (htops : Tops fb z N → Tops fb y N)
    (hre : ∀ v, Restarts fb z v → Restarts fb y v) : ComesTo fb N y := by
  obtain ⟨v, hv, hlast⟩ := hcomes
  rcases Relation.ReflTransGen.cases_head hv with rfl | ⟨w, hw, hwv⟩
  · exact ⟨y, .refl, htops hlast⟩
  · exact ⟨v, .head (hre w hw) hwv, hlast⟩

theorem tops_of_le (h : Ranges fb) (hy : y < UINT_RANGE) (hle : N ≤ y) : Tops fb y N := by
  refine ⟨0, fun j hj hzero => absurd hzero (Nat.not_le.mpr hj), ?_⟩
  by_cases hround : UINT_RANGE ≤ y + slowSize fb
  · rw [remainder_one_of_le h hy hround]
    omega
  · omega

/-- A step within a round loses none of the lengths to come. -/
theorem comesTo_of_add (hcomes : ComesTo fb N (y + slowSize fb)) : ComesTo fb N y := by
  have hgo : ∀ i, GoesRound fb (y + slowSize fb) i → GoesRound fb y i := by
    intro i hgo j hj hle
    rw [← remainder_add]
    exact hgo j hj hle
  refine hcomes.of_later ?_ ?_
  · rintro ⟨i, hround, hle⟩
    rw [remainder_add] at hle
    exact ⟨i, hgo i hround, hle⟩
  · rintro v ⟨i, hround, hlt, heq⟩
    rw [remainder_add] at hlt heq
    exact ⟨i, hgo i hround, hlt, heq⟩

/-- Neither does a step to the next round. -/
theorem comesTo_of_remainder (hleft : fastSize fb ≤ remainder fb y 1)
    (hcomes : ComesTo fb N (remainder fb y 1)) : ComesTo fb N y := by
  have hrest : ∀ i, remainder fb (remainder fb y 1) i = remainder fb y (i + 1) := by
    intro i
    rw [remainder_remainder, Nat.add_comm]
  have hgo : ∀ i, GoesRound fb (remainder fb y 1) i → GoesRound fb y (i + 1) := by
    intro i hgo j hj hle
    by_cases hone : j = 1
    · rw [hone]
      exact hleft
    · have hj' : j = j - 1 + 1 := by omega
      rw [hj', ← hrest]
      exact hgo (j - 1) (by omega) (by omega)
  refine hcomes.of_later ?_ ?_
  · rintro ⟨i, hround, hle⟩
    rw [hrest] at hle
    exact ⟨i + 1, hgo i hround, hle⟩
  · rintro v ⟨i, hround, hlt, heq⟩
    rw [hrest] at hlt heq
    exact ⟨i + 1, hgo i hround, hlt, heq⟩

theorem comesTo_of_iterate (h : Ranges fb) : ∀ k, ∀ x < UINT_RANGE, N ≤ (nextLen fb)^[k] x →
    ComesTo fb N (firstSlow fb x) := by
  intro k
  induction k with
  | zero =>
      intro x hx hle
      exact ⟨_, .refl, tops_of_le h (h.firstSlow_lt hx) (hle.trans (le_firstSlow fb x))⟩
  | succ k ih =>
      intro x hx hle
      have hcomes := ih (nextLen fb x) (h.nextLen_lt x) hle
      by_cases hsmall : x < fastSize fb
      · rwa [firstSlow_nextLen hsmall] at hcomes
      have hge := Nat.not_lt.mp hsmall
      rw [firstSlow_of_ge hge]
      by_cases hround : UINT_RANGE ≤ x + slowSize fb
      · rw [nextLen_round h hge hx hround] at hcomes
        by_cases hleft : fastSize fb ≤ remainder fb x 1
        · rw [firstSlow_of_ge hleft] at hcomes
          exact comesTo_of_remainder hleft hcomes
        · obtain ⟨z, hz, hlast⟩ := hcomes
          refine ⟨z, .head ⟨0, fun j hj hzero => absurd hzero (Nat.not_le.mpr hj), ?_, rfl⟩ hz,
            hlast⟩
          exact Nat.not_le.mp hleft
      · rw [nextLen_of_ge hge, uadd_of_lt (Nat.not_le.mp hround),
          firstSlow_of_ge (hge.trans (Nat.le_add_right _ _))] at hcomes
        exact comesTo_of_add hcomes

/-- Two restarts are enough, since a third one would be at the length of one of them. -/
theorem restarts_twice (hre : Relation.ReflTransGen (Restarts fb) y z) :
    z = y ∨ Restarts fb y z ∨ ∃ v, Restarts fb y v ∧ Restarts fb v z := by
  induction hre with
  | refl => exact Or.inl rfl
  | @tail w z _ hwz ih =>
      rcases ih with rfl | hyw | ⟨v, hyv, hvw⟩
      · exact Or.inr (Or.inl hwz)
      · exact Or.inr (Or.inr ⟨w, hyw, hwz⟩)
      · by_cases hzv : z = v
        · exact Or.inr (Or.inl (hzv ▸ hyv))
        by_cases hzw : z = w
        · exact Or.inr (Or.inr ⟨v, hyv, hzw ▸ hvw⟩)
        · have hvw' : v = w := by
            rcases hyv.eq_or_eq with hv | hv <;> rcases hvw.eq_or_eq with hw | hw <;>
              rcases hwz.eq_or_eq with hz | hz <;> omega
          exact Or.inr (Or.inr ⟨v, hyv, hvw' ▸ hwz⟩)

/-- The schedule of lengths comes to one of at least `N` exactly if the remainders say so. -/
theorem growsTo_iff_attains (h : Ranges fb) : GrowsTo fb N ↔ Attains fb N := by
  have hlt := h.firstSlow_lt h.len_lt
  have hge := fastSize_le_firstSlow fb fb.len
  constructor
  · rintro ⟨k, hk⟩
    obtain ⟨z, hz, hlast⟩ := comesTo_of_iterate h k fb.len h.len_lt hk
    rcases restarts_twice hz with rfl | hre | ⟨v, hre, hre'⟩
    · exact Or.inl hlast
    · exact Or.inr ⟨z, hre, Or.inl hlast⟩
    · exact Or.inr ⟨v, hre, Or.inr ⟨z, hre', hlast⟩⟩
  · have hfirst : ∀ {z}, (∃ k, (nextLen fb)^[k] (firstSlow fb fb.len) = z) →
        (∃ k, N ≤ (nextLen fb)^[k] z) → GrowsTo fb N := by
      rintro z ⟨k, rfl⟩ ⟨m, hm⟩
      obtain ⟨l, hl⟩ := exists_firstSlow fb fb.len
      refine ⟨m + (k + l), ?_⟩
      rwa [Function.iterate_add_apply, Function.iterate_add_apply, hl]
    rintro (htops | ⟨y, hre, htops | ⟨z, hre', htops⟩⟩)
    · exact hfirst ⟨0, rfl⟩ (htops.exists_le h hlt hge)
    · exact hfirst (hre.exists_eq h hlt hge)
        (htops.exists_le h (hre.bounds h).2 (hre.bounds h).1)
    · refine hfirst ?_ (htops.exists_le h (hre'.bounds h).2 (hre'.bounds h).1)
      obtain ⟨k, hk⟩ := hre.exists_eq h hlt hge
      obtain ⟨m, hm⟩ := hre'.exists_eq h (hre.bounds h).2 (hre.bounds h).1
      exact ⟨m + k, by rw [Function.iterate_add_apply, hk, hm]⟩

/-- It does if a step of the slow growth size from there stays within the range. -/
theorem attains_of_le (hle : N + slowSize fb ≤ UINT_RANGE) : Attains fb N :=
  Or.inl ⟨0, fun _ hj hzero => absurd hzero (Nat.not_le.mpr hj), by omega⟩

end FBuf
end LibHL
