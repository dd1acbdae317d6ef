import LibHL.RBuf.Reachable

/-!
# Reading up to an octet

The first loop of `rbuf_read_until` runs to the end of the array, whether or not the bytes
there are stored ones.  What it hands out is right when the stored bytes reach the end, when
`maxsize` keeps the loop inside them, or when it meets the octet there.
-/

namespace LibHL
namespace RBuf

open Circular

variable {rb rb' : RBuf} {octet : UInt8} {l l₁ l₂ buf out : List UInt8}

/-! ## Up to the first occurrence -/

/-- The bytes up to the first `octet`, with it; all of them if there is none. -/
def takeThrough (octet : UInt8) (l : List UInt8) : List UInt8 := l.take (l.idxOf octet + 1)

theorem takeThrough_cons_self (octet : UInt8) (l : List UInt8) :
    takeThrough octet (octet :: l) = [octet] := by
  rw [takeThrough, List.idxOf_cons_self]
  rfl

theorem takeThrough_cons_ne {b : UInt8} (h : b ≠ octet) (l : List UInt8) :
    takeThrough octet (b :: l) = b :: takeThrough octet l := by
  rw [takeThrough, List.idxOf_cons_ne l h]
  rfl

theorem takeThrough_of_notMem (h : octet ∉ l) : takeThrough octet l = l := by
  rw [takeThrough, List.idxOf_of_notMem h]
  exact List.take_of_length_le (Nat.le_succ _)

theorem takeThrough_append_of_mem (h : octet ∈ l₁) :
    takeThrough octet (l₁ ++ l₂) = takeThrough octet l₁ := by
  have hlt : l₁.idxOf octet < l₁.length := List.idxOf_lt_length_iff.mpr h
  rw [takeThrough, List.idxOf_append_of_mem h, List.take_append_of_le_length hlt]
  rfl

theorem takeThrough_append_of_notMem (h : octet ∉ l₁) :
    takeThrough octet (l₁ ++ l₂) = l₁ ++ takeThrough octet l₂ := by
  rw [takeThrough, List.idxOf_append_of_notMem h, Nat.add_assoc, List.take_length_add_append]
  rfl

theorem takeThrough_take (octet : UInt8) (l : List UInt8) (m : ℕ) :
    takeThrough octet (l.take m) = l.take (min m (l.idxOf octet + 1)) := by
  have hsplit := List.take_append_drop m l
  by_cases hmem : octet ∈ l.take m
  · have hidx : (l.take m).idxOf octet = l.idxOf octet := by
      conv_rhs => rw [← hsplit]
      exact (List.idxOf_append_of_mem hmem).symm
    rw [takeThrough, hidx, List.take_take, Nat.min_comm]
  · have hidx : (l.take m).length + (l.drop m).idxOf octet = l.idxOf octet := by
      conv_rhs => rw [← hsplit]
      exact (List.idxOf_append_of_notMem hmem).symm
    rw [takeThrough_of_notMem hmem, List.take_eq_take_iff]
    rw [List.length_take] at hidx
    omega

/-! ## The two loops -/

/-- A loop that goes on for `n` bytes at most hands them out up to the first octet. -/
theorem copyUntil_eq {go : ℤ → ℤ → Bool} {n : ℕ} :
    ∀ {fuel i : ℕ} {toRead : ℤ} {out : List UInt8}, n < fuel → n ≤ buf.length - i →
      (∀ j : ℕ, j < n → go (i + j) (toRead - j) = true) → go (i + n) (toRead - n) = false →
      copyUntil buf octet go fuel i toRead out =
        some (decide (octet ∈ (buf.drop i).take n),
          toRead - (takeThrough octet ((buf.drop i).take n)).length,
          out ++ takeThrough octet ((buf.drop i).take n)) := by
  induction n with
  | zero =>
      intro fuel i toRead out hfuel hin hgo hstop
      obtain ⟨fuel, rfl⟩ := Nat.exists_eq_succ_of_ne_zero (Nat.pos_iff_ne_zero.mp hfuel)
      have hstop' : go i toRead = false := by simpa using hstop
      rw [copyUntil, hstop']
      simp [takeThrough]
  | succ n ih =>
      intro fuel i toRead out hfuel hin hgo hstop
      obtain ⟨fuel, rfl⟩ := Nat.exists_eq_succ_of_ne_zero (Nat.ne_zero_of_lt hfuel)
      have hgo₀ : go i toRead = true := by simpa using hgo 0 (Nat.succ_pos n)
      have hi : i < buf.length := by omega
      rw [copyUntil, if_pos hgo₀, byteAt_natCast, List.getElem?_eq_getElem hi, take_drop_succ hi]
      show (if buf[i] = octet then some (true, toRead - 1, out ++ [buf[i]])
        else copyUntil buf octet go fuel (i + 1) (toRead - 1) (out ++ [buf[i]])) = _
      by_cases hb : buf[i] = octet
      · rw [if_pos hb, hb, takeThrough_cons_self]
        simp
      · have hgo' : ∀ j : ℕ, j < n → go ((i + 1 : ℕ) + j) (toRead - 1 - j) = true := by
          intro j hj
          have := hgo (j + 1) (by omega)
          push_cast at this ⊢
          convert this using 2 <;> ring
        have hstop' : go ((i + 1 : ℕ) + n) (toRead - 1 - n) = false := by
          push_cast at hstop ⊢
          convert hstop using 2 <;> ring
        have hrest : copyUntil buf octet go fuel ((i + 1 : ℕ) : ℤ) (toRead - 1) (out ++ [buf[i]]) =
            _ := ih (by omega) (by omega) hgo' hstop'
        push_cast at hrest
        rw [if_neg hb, hrest, takeThrough_cons_ne hb]
        simp [Ne.symm hb]
        omega

/-- The bytes that the two loops run over, if the octet does not end them. -/
def scanned (rb : RBuf) (maxsize : ℕ) : List UInt8 :=
  let front := (rb.buf.drop rb.rfx.toNat).take maxsize
  front ++ rb.buf.take (min (rb.used.toNat - front.length) (maxsize - front.length))

theorem rbufReadUntil_eq (h : Ranges rb) (octet : UInt8) (maxsize : ℕ) :
    rbufReadUntil rb octet maxsize =
      (rbufSkip rb (takeThrough octet (scanned rb maxsize)).length).map fun rb' =>
        (rb', ((takeThrough octet (scanned rb maxsize)).length : ℤ),
          takeThrough octet (scanned rb maxsize)) := by
  obtain ⟨hpos, hmax, hlen, hu₀, hu, hr₀, hw₀, hr⟩ := h
  obtain ⟨buf, sz, used, rfx, wfx, mode⟩ := rb
  dsimp only at *
  subst hlen
  lift used to ℕ using hu₀
  lift rfx to ℕ using hr₀
  obtain ⟨front, hfront⟩ : ∃ front, (buf.drop rfx).take maxsize = front := ⟨_, rfl⟩
  have hk : front.length = min maxsize (buf.length - rfx) := by
    rw [← hfront, List.length_take, List.length_drop]
  obtain ⟨n, hn⟩ : ∃ n, min (used - front.length) (maxsize - front.length) = n := ⟨_, rfl⟩
  have hscan : scanned ⟨buf, buf.length, used, rfx, wfx, mode⟩ maxsize = front ++ buf.take n := by
    rw [scanned, Int.toNat_natCast, Int.toNat_natCast]
    dsimp only
    rw [hfront, hn]
  have htake : (buf.drop rfx).take front.length = front := by
    rw [hk, ← hfront, List.take_eq_take_iff, List.length_drop]
    omega
  -- The first loop ends at the end of the array or after `maxsize` bytes.
  have hgo₁ : ∀ j : ℕ, j < front.length → decide ((rfx : ℤ) + j < buf.length ∧
      (used : ℤ) - (used - j) < maxsize) = true := by
    intro j hj
    exact decide_eq_true ⟨by omega, by omega⟩
  have hstop₁ : decide ((rfx : ℤ) + front.length < buf.length ∧
      (used : ℤ) - (used - front.length) < maxsize) = false :=
    decide_eq_false fun hgo => by omega
  have hfirst : copyUntil buf octet (fun i toRead => i < (buf.length : ℤ) ∧ used - toRead < maxsize)
      (buf.length + 1) rfx used [] = _ :=
    copyUntil_eq (n := front.length) (by omega) (by omega) hgo₁ hstop₁
  rw [htake, List.nil_append] at hfirst
  have hgo₂ : ∀ j : ℕ, j < n → decide (0 < (used : ℤ) - front.length - j ∧
      (used : ℤ) - (used - front.length - j) < maxsize) = true := by
    intro j hj
    exact decide_eq_true ⟨by omega, by omega⟩
  have hstop₂ : decide (0 < (used : ℤ) - front.length - n ∧
      (used : ℤ) - (used - front.length - n) < maxsize) = false :=
    decide_eq_false fun hgo => by omega
  have hlast : copyUntil buf octet (fun _ toRead => 0 < toRead ∧ (used : ℤ) - toRead < maxsize)
      (buf.length + 1) ((0 : ℕ) : ℤ) (used - front.length) front = _ :=
    copyUntil_eq (n := n) (by omega) (by omega) hgo₂ hstop₂
  rw [List.drop_zero, Int.natCast_zero] at hlast
  rw [hscan, rbufReadUntil]
  dsimp only
  rw [hfirst]
  by_cases hmem : octet ∈ front
  · rw [takeThrough_append_of_mem hmem]
    simp only [Option.bind_eq_bind, Option.bind_some, decide_eq_true hmem, if_true,
      Int.sub_sub_self, Option.map_eq_bind]
    rfl
  · rw [takeThrough_append_of_notMem hmem, List.length_append, Nat.cast_add]
    simp only [Option.bind_eq_bind, Option.bind_some, decide_eq_false hmem, Bool.false_eq_true,
      if_false, takeThrough_of_notMem hmem, hlast, Int.sub_sub, Int.sub_sub_self,
      Option.map_eq_bind]
    rfl

/-! ## The stored bytes -/

theorem rbufSkip_contents (h : Ranges rb) (n : ℕ) :
    ∃ rb', rbufSkip rb n = some rb' ∧ contents rb' = (contents rb).drop n := by
  have hlength := h.length_contents
  obtain ⟨hpos, hmax, hlen, hu₀, hu, hr₀, hw₀, hr⟩ := h
  obtain ⟨buf, sz, used, rfx, wfx, mode⟩ := rb
  dsimp only at *
  subst hlen
  lift used to ℕ using hu₀
  lift rfx to ℕ using hr₀
  rw [Int.toNat_natCast] at hlength
  rw [rbufSkip]
  dsimp only
  by_cases hall : (used : ℤ) ≤ n
  · rw [if_pos hall]
    refine ⟨_, rfl, ?_⟩
    rw [List.drop_of_length_le (by omega)]
    exact window_zero _ _
  · have hdrop : (window buf rfx used).drop n = window buf (rfx + n) (used - n) :=
      drop_window (by omega) (by omega)
    rw [if_neg hall]
    by_cases hround : (buf.length : ℤ) - rfx < n
    · rw [if_pos hround]
      refine ⟨_, rfl, ?_⟩
      have hrfx : ((n : ℤ) - (buf.length - rfx)).toNat = n - (buf.length - rfx) := by omega
      have hused : ((used : ℤ) - n).toNat = used - n := by omega
      show window buf ((n : ℤ) - (buf.length - rfx)).toNat ((used : ℤ) - n).toNat = _
      rw [hrfx, hused]
      exact (window_congr (modEq_wrap (by omega) (by omega)).symm).trans hdrop.symm
    · have hadd : intAdd (rfx : ℤ) n = some ((rfx + n : ℕ) : ℤ) := by
        have : INT_MAX = 2 ^ 31 - 1 := rfl
        exact intAdd_natCast (by omega)
      rw [if_neg hround, hadd]
      refine ⟨_, rfl, ?_⟩
      have hused : ((used : ℤ) - n).toNat = used - n := by omega
      show window buf ((rfx + n : ℕ) : ℤ).toNat ((used : ℤ) - n).toNat = _
      rw [hused, Int.toNat_natCast]
      exact hdrop.symm

/-- The number of bytes up to the first `octet`, at most `maxsize`. -/
def untilSize (rb : RBuf) (octet : UInt8) (maxsize : ℕ) : ℕ :=
  min maxsize (min ((contents rb).idxOf octet + 1) (contents rb).length)

/-- `rbuf_read_until` hands out, removes and counts the stored bytes up to the first `octet`,
at most `maxsize`. -/
def ReadsUntil (rb : RBuf) (octet : UInt8) (maxsize : ℕ) : Prop :=
  ∃ rb', rbufReadUntil rb octet maxsize =
      some (rb', (untilSize rb octet maxsize : ℤ),
        (contents rb).take (untilSize rb octet maxsize)) ∧
    contents rb' = (contents rb).drop (untilSize rb octet maxsize)

/-- The stored bytes reach the end of the array, `maxsize` is not more than their number, or
`octet` is one of them. -/
def StopsInside (rb : RBuf) (octet : UInt8) (maxsize : ℕ) : Prop :=
  rb.size - rb.rfx ≤ rb.used ∨ maxsize ≤ rb.used ∨ octet ∈ contents rb

instance (rb : RBuf) (octet : UInt8) (maxsize : ℕ) : Decidable (StopsInside rb octet maxsize) :=
  inferInstanceAs (Decidable (_ ∨ _ ∨ _))

theorem take_untilSize (rb : RBuf) (octet : UInt8) (maxsize : ℕ) :
    (contents rb).take (untilSize rb octet maxsize) =
      takeThrough octet ((contents rb).take maxsize) := by
  rw [takeThrough_take, List.take_eq_take_iff, untilSize]
  omega

/-- What the loops run over, when one of the first two ends them. -/
theorem scanned_eq_take (h : Ranges rb) {maxsize : ℕ}
    (hends : rb.size - rb.rfx ≤ rb.used ∨ maxsize ≤ rb.used) :
    scanned rb maxsize = (contents rb).take maxsize := by
  obtain ⟨hpos, hmax, hlen, hu₀, hu, hr₀, hw₀, hr⟩ := h
  obtain ⟨buf, sz, used, rfx, wfx, mode⟩ := rb
  dsimp only at *
  subst hlen
  lift used to ℕ using hu₀
  lift rfx to ℕ using hr₀
  rw [scanned, contents, window]
  dsimp only
  rw [Int.toNat_natCast, Int.toNat_natCast, List.take_take, List.length_take, List.length_drop]
  rcases hr with hr | ⟨hnone, -⟩
  · have hfront : (buf.drop rfx).take maxsize = (buf.drop rfx).take (min maxsize used) := by
      rw [List.take_eq_take_iff, List.length_drop]
      omega
    rw [List.rotate_eq_drop_append_take (by omega), List.take_append, hfront, List.take_take,
      List.length_drop]
    congr 1
    rw [List.take_eq_take_iff]
    omega
  · obtain rfl : used = 0 := by omega
    have hnil : (buf.drop rfx).take maxsize = [] := by
      rw [← List.length_eq_zero_iff, List.length_take, List.length_drop]
      omega
    rw [hnil, Nat.zero_sub, Nat.zero_min, Nat.min_zero, List.take_zero, List.take_zero]
    rfl

/-- Otherwise they run past the stored bytes, if they do not meet the octet. -/
theorem scanned_eq_append (h : Ranges rb) {maxsize : ℕ} (hshort : rb.used < rb.size - rb.rfx)
    (hlong : rb.used < maxsize) :
    ∃ more, more ≠ [] ∧ scanned rb maxsize = contents rb ++ more := by
  obtain ⟨hpos, hmax, hlen, hu₀, hu, hr₀, hw₀, hr⟩ := h
  obtain ⟨buf, sz, used, rfx, wfx, mode⟩ := rb
  dsimp only at *
  subst hlen
  lift used to ℕ using hu₀
  lift rfx to ℕ using hr₀
  have hcontents : contents ⟨buf, buf.length, used, rfx, wfx, mode⟩ = (buf.drop rfx).take used := by
    have hle : used ≤ buf.length - rfx := by omega
    have hrfx : rfx ≤ buf.length := by omega
    exact window_straight hle hrfx
  have hfront : (buf.drop rfx).take maxsize =
      (buf.drop rfx).take used ++ ((buf.drop rfx).drop used).take (maxsize - used) := by
    rw [← List.take_add]
    congr 1
    omega
  have hnone : used - ((buf.drop rfx).take maxsize).length = 0 := by
    rw [List.length_take, List.length_drop]
    omega
  refine ⟨((buf.drop rfx).drop used).take (maxsize - used), ?_, ?_⟩
  · rw [← List.length_pos_iff, List.length_take, List.length_drop, List.length_drop]
    omega
  · rw [hcontents, scanned, Int.toNat_natCast, Int.toNat_natCast]
    dsimp only
    rw [hnone, Nat.zero_min, List.take_zero, List.append_nil, hfront]

/-- `rbuf_read_until` stays within the stored bytes exactly if one of the three ends its
loops there. -/
theorem readsUntil_iff (h : Reachable rb) (octet : UInt8) (maxsize : ℕ) :
    ReadsUntil rb octet maxsize ↔ StopsInside rb octet maxsize := by
  have hranges := h.ranges
  have hlength := hranges.length_contents
  have hused := hranges.used_nonneg
  rw [ReadsUntil, rbufReadUntil_eq hranges, take_untilSize]
  constructor
  · rintro ⟨rb', hrun, -⟩
    by_contra hout
    rw [StopsInside, not_or, not_or] at hout
    obtain ⟨hshort, hlong, hmem⟩ := hout
    obtain ⟨more, hmore, hscan⟩ := scanned_eq_append hranges (Int.not_le.mp hshort)
      (Int.not_le.mp hlong)
    obtain ⟨rb'', -, heq⟩ := Option.map_eq_some_iff.mp hrun
    -- At least one byte more than the stored ones is handed out.
    obtain ⟨b, more, rfl⟩ := List.exists_cons_of_ne_nil hmore
    have hn : (takeThrough octet (scanned rb maxsize)).length = untilSize rb octet maxsize := by
      simp only [Prod.mk.injEq] at heq
      exact_mod_cast heq.2.1
    rw [hscan, takeThrough_append_of_notMem hmem, List.length_append, takeThrough,
      List.take_succ_cons, List.length_cons, untilSize] at hn
    omega
  · intro hstops
    have hscan : takeThrough octet (scanned rb maxsize) =
        takeThrough octet ((contents rb).take maxsize) := by
      by_cases hends : rb.size - rb.rfx ≤ rb.used ∨ maxsize ≤ rb.used
      · rw [scanned_eq_take hranges hends]
      · rw [not_or] at hends
        have hmem : octet ∈ contents rb := by
          rcases hstops with hreach | hmax | hmem
          · exact absurd hreach hends.1
          · exact absurd hmax hends.2
          · exact hmem
        obtain ⟨more, -, hmore⟩ := scanned_eq_append hranges (Int.not_le.mp hends.1)
          (Int.not_le.mp hends.2)
        rw [hmore, takeThrough_append_of_mem hmem, List.take_of_length_le (by omega)]
    have hn : (takeThrough octet ((contents rb).take maxsize)).length =
        untilSize rb octet maxsize := by
      rw [← take_untilSize, List.length_take, untilSize]
      omega
    obtain ⟨rb', hskip, hdrop⟩ := rbufSkip_contents hranges (untilSize rb octet maxsize)
    refine ⟨rb', ?_, hdrop⟩
    rw [hscan, hn, hskip]
    rfl

/-! ## Bytes that were not stored -/

/-- Four bytes are handed out, the two stored ones and two that were not. -/
theorem readUntil_delivers_more :
    ¬ ∀ rb, Reachable rb → ∀ (octet : UInt8) (maxsize : ℕ), ReadsUntil rb octet maxsize := by
  intro hall
  obtain ⟨rb', hrun, -⟩ := hall halfFull halfFull_reachable 122 4
  have hout : (rbufReadUntil halfFull 122 (4 : ℕ)).map Prod.snd = some (4, [97, 98, 0, 0]) := by
    decide
  rw [hrun, Option.map_some, Option.some.injEq] at hout
  have hn : (untilSize halfFull 122 4 : ℤ) = 4 := congrArg Prod.fst hout
  exact absurd hn (by decide)

/-- The equivalence for an octet that is stored, and a `maxsize` above the stored amount. -/
theorem readsUntil_iff_halfFull : ReadsUntil halfFull 98 4 ↔ StopsInside halfFull 98 4 :=
  readsUntil_iff halfFull_reachable 98 4

end RBuf
end LibHL
