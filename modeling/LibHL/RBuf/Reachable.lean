import LibHL.RBuf.Refinement

/-!
# Reachable ring buffers

What each operation does to the fields, whatever state it starts in.  The fields keep
their ranges along every run, also when a move or a copy into a buffer leaves its offsets
at odds with the number of its bytes.  The write offset alone may leave the array, and the
read offset may follow it when nothing is stored.
-/

namespace LibHL
namespace RBuf

variable {rb rb' src dst src' dst' : RBuf} {size : ℕ}

/-! ## The primitives -/

theorem load_eq_some {buf bytes : List UInt8} {off n : ℤ} (h : load buf off n = some bytes) :
    0 ≤ off ∧ 0 ≤ n ∧ off + n ≤ buf.length ∧ (bytes.length : ℤ) = n := by
  rw [load] at h
  by_cases hin : 0 ≤ off ∧ 0 ≤ n ∧ off + n ≤ buf.length
  · rw [if_pos hin] at h
    cases h
    refine ⟨hin.1, hin.2.1, hin.2.2, ?_⟩
    rw [List.length_take, List.length_drop]
    omega
  · rw [if_neg hin] at h
    cases h

theorem store_eq_some {buf buf' bytes : List UInt8} {off : ℤ}
    (h : store buf off bytes = some buf') :
    0 ≤ off ∧ off + bytes.length ≤ buf.length ∧ buf'.length = buf.length := by
  rw [store] at h
  by_cases hin : 0 ≤ off ∧ off + bytes.length ≤ buf.length
  · rw [if_pos hin] at h
    cases h
    refine ⟨hin.1, hin.2, Circular.length_overwrite ?_⟩
    omega
  · rw [if_neg hin] at h
    cases h

theorem intAdd_eq_some {x y z : ℤ} (h : intAdd x y = some z) : z = x + y := by
  rw [intAdd] at h
  by_cases hin : -(2 ^ 31) ≤ x + y ∧ x + y ≤ INT_MAX
  · rw [if_pos hin] at h
    exact (Option.some.inj h).symm
  · rw [if_neg hin] at h
    cases h

theorem byteAt_natCast (buf : List UInt8) (i : ℕ) : byteAt buf i = buf[i]? := by
  rw [byteAt, if_pos (Int.natCast_nonneg i), Int.toNat_natCast]

theorem take_drop_succ {buf : List UInt8} {n i : ℕ} (hi : i < buf.length) :
    (buf.drop i).take (n + 1) = buf[i] :: (buf.drop (i + 1)).take n := by
  rw [List.drop_eq_getElem_cons hi, List.take_succ_cons]

/-! ## What the operations do -/

theorem rbufSkip_cases {n : ℤ} (h : rbufSkip rb n = some rb') :
    (rb.used ≤ n ∧ rb' = { rb with rfx := rb.wfx, used := 0 }) ∨
    (n < rb.used ∧ rb.size - rb.rfx < n ∧
      rb' = { rb with rfx := n - (rb.size - rb.rfx), used := rb.used - n }) ∨
    (n < rb.used ∧ n ≤ rb.size - rb.rfx ∧
      rb' = { rb with rfx := rb.rfx + n, used := rb.used - n }) := by
  rw [rbufSkip] at h
  by_cases hall : rb.used ≤ n
  · rw [if_pos hall] at h
    exact Or.inl ⟨hall, (Option.some.inj h).symm⟩
  · rw [if_neg hall] at h
    by_cases hround : rb.size - rb.rfx < n
    · rw [if_pos hround] at h
      exact Or.inr (Or.inl ⟨Int.not_le.mp hall, hround, (Option.some.inj h).symm⟩)
    · rw [if_neg hround] at h
      obtain ⟨rfx, hrfx, heq⟩ := Option.bind_eq_some_iff.mp h
      obtain rfl := intAdd_eq_some hrfx
      exact Or.inr (Or.inr ⟨Int.not_le.mp hall, Int.not_lt.mp hround, (Option.some.inj heq).symm⟩)

/-- A read moves the read offset likewise, and hands out as many bytes. -/
theorem rbufRead_cases {n k : ℤ} {out : List UInt8} (h : rbufRead rb n = some (rb', k, out)) :
    k = min n rb.used ∧ (out.length : ℤ) = k ∧ 0 ≤ k ∧ rb.rfx ≤ rb.size ∧
    ((rb.size - rb.rfx < k ∧
        rb' = { rb with rfx := k - (rb.size - rb.rfx), used := rb.used - k }) ∨
      (k ≤ rb.size - rb.rfx ∧ rb' = { rb with rfx := rb.rfx + k, used := rb.used - k })) := by
  have hmin : (if rb.used < n then rb.used else n) = min n rb.used := by
    split <;> omega
  rw [rbufRead, hmin] at h
  by_cases hround : rb.size - rb.rfx < min n rb.used
  · simp only [if_pos hround] at h
    obtain ⟨front, hfront, h⟩ := Option.bind_eq_some_iff.mp h
    obtain ⟨back, hback, heq⟩ := Option.bind_eq_some_iff.mp h
    cases heq
    obtain ⟨-, hend, -, hlen⟩ := load_eq_some hfront
    obtain ⟨-, hrest, -, hlen'⟩ := load_eq_some hback
    refine ⟨rfl, ?_, by omega, by omega, Or.inl ⟨hround, rfl⟩⟩
    rw [List.length_append, Nat.cast_add, hlen, hlen']
    omega
  · simp only [if_neg hround] at h
    obtain ⟨bytes, hbytes, h⟩ := Option.bind_eq_some_iff.mp h
    obtain ⟨rfx, hrfx, heq⟩ := Option.bind_eq_some_iff.mp h
    cases heq
    obtain rfl := intAdd_eq_some hrfx
    obtain ⟨-, hpos, -, hlen⟩ := load_eq_some hbytes
    exact ⟨rfl, hlen, hpos, by omega, Or.inr ⟨Int.not_lt.mp hround, rfl⟩⟩

/-- A write of `n` bytes moves the write offset, round the end if need be. -/
theorem writeBytes_cases {inp : List UInt8} {n k : ℤ}
    (h : writeBytes rb inp (rb.size - rb.wfx) n = some (rb', k)) :
    rb'.size = rb.size ∧ rb'.buf.length = rb.buf.length ∧ rb'.rfx = rb.rfx ∧
    rb'.used = rb.used + n ∧ 0 ≤ n ∧ rb.wfx ≤ rb.buf.length ∧
    ((rb.size - rb.wfx < n ∧ rb'.wfx = n - (rb.size - rb.wfx)) ∨
      (n ≤ rb.size - rb.wfx ∧ rb'.wfx = rb.wfx + n)) := by
  rw [writeBytes] at h
  by_cases hround : rb.size - rb.wfx < n
  · rw [if_pos hround] at h
    obtain ⟨front, hfront, h⟩ := Option.bind_eq_some_iff.mp h
    obtain ⟨buf₁, hbuf₁, h⟩ := Option.bind_eq_some_iff.mp h
    obtain ⟨back, hback, h⟩ := Option.bind_eq_some_iff.mp h
    obtain ⟨buf₂, hbuf₂, h⟩ := Option.bind_eq_some_iff.mp h
    obtain ⟨used, hused, heq⟩ := Option.bind_eq_some_iff.mp h
    cases heq
    obtain rfl := intAdd_eq_some hused
    obtain ⟨-, hend, -, -⟩ := load_eq_some hfront
    obtain ⟨-, hfit, hlen₁⟩ := store_eq_some hbuf₁
    obtain ⟨-, -, hlen₂⟩ := store_eq_some hbuf₂
    refine ⟨rfl, hlen₂.trans hlen₁, rfl, rfl, ?_, ?_, Or.inl ⟨hround, rfl⟩⟩
    · omega
    · omega
  · rw [if_neg hround] at h
    obtain ⟨bytes, hbytes, h⟩ := Option.bind_eq_some_iff.mp h
    obtain ⟨buf, hbuf, h⟩ := Option.bind_eq_some_iff.mp h
    obtain ⟨wfx, hwfx, h⟩ := Option.bind_eq_some_iff.mp h
    obtain ⟨used, hused, heq⟩ := Option.bind_eq_some_iff.mp h
    cases heq
    obtain rfl := intAdd_eq_some hwfx
    obtain rfl := intAdd_eq_some hused
    obtain ⟨-, hpos, -, -⟩ := load_eq_some hbytes
    obtain ⟨-, hfit, hlen⟩ := store_eq_some hbuf
    refine ⟨rfl, hlen, rfl, rfl, hpos, ?_, Or.inr ⟨Int.not_lt.mp hround, rfl⟩⟩
    omega

/-- A write first drops `d` bytes to make room, and stores what fits then, unless it fills
the whole buffer. -/
theorem rbufWrite_cases {inp : List UInt8} {k : ℤ} (h : rbufWrite rb inp = some (rb', k)) :
    rb' = rb ∨
    (rb'.size = rb.size ∧ rb'.buf.length = rb.buf.length ∧ rb'.rfx = 0 ∧ rb'.wfx = 0 ∧
      rb'.used = rb.size) ∨
    ∃ d n, 0 ≤ d ∧ (d = 0 ∨ d ≤ rb.used) ∧ 0 ≤ n ∧ n ≤ rb.size - (rb.used - d) ∧
      rb'.size = rb.size ∧ rb'.buf.length = rb.buf.length ∧ rb'.used = rb.used - d + n ∧
      (d = 0 ∧ rb'.rfx = rb.rfx ∨ rb.size ≤ rb.rfx + d ∧ rb'.rfx = rb.rfx + d - rb.size ∨
        rb.rfx + d < rb.size ∧ rb'.rfx = rb.rfx + d) ∧
      rb.wfx ≤ rb.buf.length ∧
      ((rb.size - rb.wfx < n ∧ rb'.wfx = n - (rb.size - rb.wfx)) ∨
        (n ≤ rb.size - rb.wfx ∧ rb'.wfx = rb.wfx + n)) := by
  rw [rbufWrite] at h
  by_cases hnil : (inp.length : ℤ) = 0
  · rw [if_pos hnil] at h
    cases h
    exact Or.inl rfl
  rw [if_neg hnil] at h
  obtain ⟨n, hn⟩ : ∃ n, (if rb.size - rb.used < (inp.length : ℤ) then rb.size - rb.used
    else (inp.length : ℤ)) = n := ⟨_, rfl⟩
  have hle : n ≤ rb.size - rb.used ∧ n ≤ inp.length := by
    rw [← hn]
    split <;> omega
  simp only [hn] at h
  by_cases hover : n < inp.length ∧ rb.mode = .overwrite
  · rw [if_pos hover] at h
    have hroom : n = rb.size - rb.used := by
      rw [← hn] at hover ⊢
      by_cases hlt : rb.size - rb.used < (inp.length : ℤ)
      · rw [if_pos hlt]
      · rw [if_neg hlt] at hover
        omega
    by_cases hwhole : rb.size < (inp.length : ℤ)
    · rw [if_pos hwhole] at h
      obtain ⟨bytes, hbytes, h⟩ := Option.bind_eq_some_iff.mp h
      obtain ⟨buf, hbuf, heq⟩ := Option.bind_eq_some_iff.mp h
      cases heq
      exact Or.inr (Or.inl ⟨rfl, (store_eq_some hbuf).2.2, rfl, rfl, rfl⟩)
    · rw [if_neg hwhole] at h
      obtain ⟨rfx, hrfx, h⟩ := Option.bind_eq_some_iff.mp h
      obtain ⟨m, hm, h⟩ := Option.bind_eq_some_iff.mp h
      obtain rfl := intAdd_eq_some hrfx
      obtain rfl := intAdd_eq_some hm
      obtain ⟨hsize, hlen, hrfx', hused, hpos, hw, hwfx⟩ := writeBytes_cases h
      refine Or.inr (Or.inr ⟨inp.length - n, n + (inp.length - n), by omega, Or.inr (by omega), hpos,
        by omega, hsize, hlen, hused, Or.inr ?_, hw, hwfx⟩)
      rw [hrfx']
      by_cases hround : rb.size ≤ rb.rfx + (inp.length - n)
      · exact Or.inl ⟨hround, if_pos hround⟩
      · exact Or.inr ⟨Int.not_le.mp hround, if_neg hround⟩
  · rw [if_neg hover] at h
    obtain ⟨hsize, hlen, hrfx, hused, hpos, hw, hwfx⟩ := writeBytes_cases h
    exact Or.inr (Or.inr ⟨0, n, le_refl 0, Or.inl rfl, hpos, by omega, hsize, hlen, by omega,
      Or.inl ⟨rfl, hrfx⟩, hw, hwfx⟩)

/-! ## Ranges -/

/-- The ranges that the fields never leave. -/
structure Ranges (rb : RBuf) : Prop where
  size_pos : 0 < rb.size
  size_le : rb.size ≤ INT_MAX
  length_buf : (rb.buf.length : ℤ) = rb.size
  used_nonneg : 0 ≤ rb.used
  used_le : rb.used ≤ rb.size
  rfx_nonneg : 0 ≤ rb.rfx
  wfx_nonneg : 0 ≤ rb.wfx
  rfx_le : rb.rfx ≤ rb.size ∨ rb.used = 0 ∧ rb.rfx = rb.wfx

/-- The offsets agree with the number of stored bytes, and bytes are written inside the
array. -/
structure Agrees (rb : RBuf) : Prop where
  offsets : rb.rfx + rb.used ≡ rb.wfx [ZMOD rb.size]
  wfx_le : rb.wfx ≤ rb.size

/-- Offsets and number of bytes move along with each other, up to full turns. -/
theorem Agrees.of_eq (h : Agrees rb) (hsize : rb'.size = rb.size) (e : ℤ)
    (heq : rb'.rfx + rb'.used - rb'.wfx = rb.rfx + rb.used - rb.wfx + rb.size * e)
    (hwfx : rb'.wfx ≤ rb'.size) : Agrees rb' := by
  refine ⟨?_, hwfx⟩
  obtain ⟨k, hk⟩ := Int.modEq_iff_dvd.mp h.offsets
  rw [Int.modEq_iff_dvd]
  refine ⟨k - e, ?_⟩
  rw [hsize, Int.mul_sub, ← hk]
  omega

theorem turns_of_dvd {s d : ℤ} (hs : 0 < s) (hdvd : s ∣ d) (hlow : -s ≤ d) (hhigh : d ≤ 2 * s) :
    d = -s ∨ d = 0 ∨ d = s ∨ d = 2 * s := by
  obtain ⟨k, rfl⟩ := hdvd
  have hk₁ : -1 ≤ k := Int.le_of_mul_le_mul_left (by omega) hs
  have hk₂ : k ≤ 2 := Int.le_of_mul_le_mul_left (by omega) hs
  obtain rfl | rfl | rfl | rfl : k = -1 ∨ k = 0 ∨ k = 1 ∨ k = 2 := by omega
  · exact Or.inl (by omega)
  · exact Or.inr (Or.inl (by omega))
  · exact Or.inr (Or.inr (Or.inl (by omega)))
  · exact Or.inr (Or.inr (Or.inr (by omega)))

theorem Ranges.inBounds (h : Ranges rb) (hagrees : Agrees rb) : InBounds rb rb.buf.length := by
  obtain ⟨hpos, hmax, hlen, hu₀, hu, hr₀, hw₀, hr⟩ := h
  obtain ⟨hoff, hw⟩ := hagrees
  rw [← hlen] at hoff
  exact ⟨hlen.symm, rfl, hu₀, by omega, hr₀, by omega, hw₀, by omega, hoff⟩

theorem Ranges.length_contents (h : Ranges rb) : (contents rb).length = rb.used.toNat := by
  have := h.used_le
  have := h.length_buf
  exact Circular.length_window (by omega)

theorem rbufSkip_keeps {n : ℤ} (h : Ranges rb) (hn : 0 ≤ n) (hrun : rbufSkip rb n = some rb') :
    Ranges rb' ∧ (Agrees rb → Agrees rb') := by
  obtain ⟨hpos, hmax, hlen, hu₀, hu, hr₀, hw₀, hr⟩ := h
  rcases rbufSkip_cases hrun with ⟨hall, rfl⟩ | ⟨hpart, hround, rfl⟩ | ⟨hpart, hround, rfl⟩
  · refine ⟨⟨hpos, hmax, hlen, le_refl 0, hpos.le, hw₀, hw₀, Or.inr ⟨rfl, rfl⟩⟩,
      fun hagrees => ⟨?_, hagrees.wfx_le⟩⟩
    rw [Int.add_zero]
  · refine ⟨by constructor <;> dsimp only <;> omega,
      fun hagrees => hagrees.of_eq rfl (-1) ?_ hagrees.wfx_le⟩
    dsimp only
    omega
  · refine ⟨by constructor <;> dsimp only <;> omega,
      fun hagrees => hagrees.of_eq rfl 0 ?_ hagrees.wfx_le⟩
    dsimp only
    omega

theorem rbufRead_keeps {n k : ℤ} {out : List UInt8} (h : Ranges rb)
    (hrun : rbufRead rb n = some (rb', k, out)) :
    Ranges rb' ∧ (Agrees rb → Agrees rb') ∧ rb'.size = rb.size := by
  obtain ⟨hpos, hmax, hlen, hu₀, hu, hr₀, hw₀, hr⟩ := h
  obtain ⟨hk, -, hk₀, hrfx, hmoved⟩ := rbufRead_cases hrun
  have hku : k ≤ rb.used := by omega
  rcases hmoved with ⟨hround, rfl⟩ | ⟨hround, rfl⟩
  · refine ⟨by constructor <;> dsimp only <;> omega,
      fun hagrees => hagrees.of_eq rfl (-1) ?_ hagrees.wfx_le, rfl⟩
    dsimp only
    omega
  · refine ⟨by constructor <;> dsimp only <;> omega,
      fun hagrees => hagrees.of_eq rfl 0 ?_ hagrees.wfx_le, rfl⟩
    dsimp only
    omega

theorem rbufWrite_keeps {inp : List UInt8} {k : ℤ} (h : Ranges rb)
    (hrun : rbufWrite rb inp = some (rb', k)) : Ranges rb' ∧ (Agrees rb → Agrees rb') := by
  obtain ⟨hpos, hmax, hlen, hu₀, hu, hr₀, hw₀, hr⟩ := id h
  rcases rbufWrite_cases hrun with rfl | ⟨hsize, hlen', hrfx, hwfx, hused⟩ |
    ⟨d, n, hd, hdu, hn, hfit, hsize, hlen', hused, hrfx, hw, hwfx⟩
  · exact ⟨h, id⟩
  · refine ⟨by constructor <;> omega, fun _ => ⟨?_, by omega⟩⟩
    rw [hrfx, hwfx, hused, hsize, Int.zero_add]
    exact Int.modEq_zero_iff_dvd.mpr (dvd_refl _)
  · refine ⟨by constructor <;> omega, fun hagrees => ?_⟩
    have hle : rb'.wfx ≤ rb'.size := by
      have := hagrees.wfx_le
      omega
    -- Each offset goes round the end at most once.
    rcases hrfx with ⟨rfl, hrfx⟩ | ⟨-, hrfx⟩ | ⟨-, hrfx⟩ <;> rcases hwfx with ⟨-, hwfx⟩ | ⟨-, hwfx⟩
    · exact hagrees.of_eq hsize 1 (by omega) hle
    · exact hagrees.of_eq hsize 0 (by omega) hle
    · exact hagrees.of_eq hsize 0 (by omega) hle
    · exact hagrees.of_eq hsize (-1) (by omega) hle
    · exact hagrees.of_eq hsize 1 (by omega) hle
    · exact hagrees.of_eq hsize 0 (by omega) hle

theorem stepOp_keeps {op : RbufOp} {r : ℤ × List UInt8} (h : Ranges rb)
    (hrun : stepOp rb op = some (rb', r)) : Ranges rb' ∧ (Agrees rb → Agrees rb') := by
  cases op with
  | write inp =>
      obtain ⟨s, hs, heq⟩ := Option.map_eq_some_iff.mp hrun
      cases heq
      exact rbufWrite_keeps h hs
  | read n =>
      obtain ⟨k, out⟩ := r
      obtain ⟨hranges, hagrees, -⟩ := rbufRead_keeps h hrun
      exact ⟨hranges, hagrees⟩
  | skip n =>
      obtain ⟨s, hs, heq⟩ := Option.map_eq_some_iff.mp hrun
      cases heq
      exact rbufSkip_keeps h (Int.natCast_nonneg n) hs
  | clear =>
      cases hrun
      obtain ⟨hpos, hmax, hlen, hu₀, hu, hr₀, hw₀, hr⟩ := h
      refine ⟨⟨hpos, hmax, hlen, le_refl 0, hpos.le, le_refl 0, le_refl 0, Or.inl hpos.le⟩,
        fun _ => ⟨rfl, hpos.le⟩⟩
  | setMode mode =>
      cases hrun
      exact ⟨⟨h.size_pos, h.size_le, h.length_buf, h.used_nonneg, h.used_le, h.rfx_nonneg,
        h.wfx_nonneg, h.rfx_le⟩, fun hagrees => ⟨hagrees.offsets, hagrees.wfx_le⟩⟩

/-- The bytes left after a loop of `rbuf_read_until`: not more than before. -/
theorem copyUntil_le {buf : List UInt8} {octet : UInt8} {go : ℤ → ℤ → Bool} :
    ∀ {fuel : ℕ} {i toRead : ℤ} {out : List UInt8} {r : Bool × ℤ × List UInt8},
      copyUntil buf octet go fuel i toRead out = some r → r.2.1 ≤ toRead := by
  intro fuel
  induction fuel with
  | zero =>
      intro i toRead out r hrun
      cases hrun
  | succ fuel ih =>
      intro i toRead out r hrun
      rw [copyUntil] at hrun
      by_cases hgo : go i toRead = true
      · rw [if_pos hgo] at hrun
        obtain ⟨b, -, hrun⟩ := Option.bind_eq_some_iff.mp hrun
        by_cases hb : b = octet
        · rw [if_pos hb] at hrun
          cases hrun
          dsimp only
          omega
        · rw [if_neg hb] at hrun
          have := ih hrun
          omega
      · rw [if_neg hgo] at hrun
        cases hrun
        exact le_refl _

theorem rbufReadUntil_keeps {octet : UInt8} {maxsize k : ℤ} {out : List UInt8} (h : Ranges rb)
    (hrun : rbufReadUntil rb octet maxsize = some (rb', k, out)) :
    Ranges rb' ∧ (Agrees rb → Agrees rb') := by
  obtain ⟨first, hfirst, hrun⟩ := Option.bind_eq_some_iff.mp hrun
  obtain ⟨last, hlast, hrun⟩ := Option.bind_eq_some_iff.mp hrun
  obtain ⟨rb'', hskip, heq⟩ := Option.bind_eq_some_iff.mp hrun
  cases heq
  have hle := copyUntil_le hfirst
  have hle' : last.2.1 ≤ first.2.1 := by
    by_cases hfound : first.1 = true
    · rw [if_pos hfound] at hlast
      rw [Option.some.inj hlast]
    · rw [if_neg hfound] at hlast
      exact copyUntil_le hlast
  exact rbufSkip_keeps h (by omega) hskip

/-! ## Moves and copies -/

/-- What is known of the buffers after `rbuf_copy_internal`, besides their contents. -/
structure Copied (src dst src' dst' : RBuf) (toCopy : ℤ) : Prop where
  source : Ranges src'
  agrees : Agrees src → Agrees src'
  size : dst'.size = dst.size
  length : dst'.buf.length = dst.buf.length
  rfx : dst'.rfx = dst.rfx
  used : dst'.used = toCopy
  wfx_nonneg : 0 ≤ dst'.wfx
  wfx_le : dst.wfx ≤ dst.buf.length

theorem copyStraight_copied {toCopy : ℤ} {move : Bool} (hsrc : Ranges src) (hdst : Ranges dst)
    (hcopy : 0 ≤ toCopy) (hrun : copyStraight src dst toCopy move = some (src', dst')) :
    Copied src dst src' dst' toCopy := by
  have hw := hdst.wfx_nonneg
  rw [copyStraight] at hrun
  by_cases hmove : move = true
  · rw [if_pos hmove] at hrun
    obtain ⟨⟨s, k, bytes⟩, hread, hrun⟩ := Option.bind_eq_some_iff.mp hrun
    obtain ⟨buf, hbuf, hrun⟩ := Option.bind_eq_some_iff.mp hrun
    obtain ⟨wfx, hwfx, heq⟩ := Option.bind_eq_some_iff.mp hrun
    cases heq
    obtain ⟨hranges, hagrees, -⟩ := rbufRead_keeps hsrc hread
    obtain ⟨-, hfit, hlen⟩ := store_eq_some hbuf
    have := intAdd_eq_some hwfx
    exact ⟨hranges, hagrees, rfl, hlen, rfl, rfl, by dsimp only; omega, by omega⟩
  · rw [if_neg hmove] at hrun
    by_cases hstraight : src.rfx < src.wfx
    · rw [if_pos hstraight] at hrun
      obtain ⟨bytes, hbytes, hrun⟩ := Option.bind_eq_some_iff.mp hrun
      obtain ⟨buf, hbuf, hrun⟩ := Option.bind_eq_some_iff.mp hrun
      obtain ⟨wfx, hwfx, heq⟩ := Option.bind_eq_some_iff.mp hrun
      cases heq
      obtain ⟨-, hfit, hlen⟩ := store_eq_some hbuf
      have := intAdd_eq_some hwfx
      exact ⟨hsrc, id, rfl, hlen, rfl, rfl, by dsimp only; omega, by omega⟩
    · rw [if_neg hstraight] at hrun
      obtain ⟨front, hfront, hrun⟩ := Option.bind_eq_some_iff.mp hrun
      obtain ⟨buf₁, hbuf₁, hrun⟩ := Option.bind_eq_some_iff.mp hrun
      obtain ⟨wfx₁, hwfx₁, hrun⟩ := Option.bind_eq_some_iff.mp hrun
      obtain ⟨back, -, hrun⟩ := Option.bind_eq_some_iff.mp hrun
      obtain ⟨buf₂, hbuf₂, hrun⟩ := Option.bind_eq_some_iff.mp hrun
      obtain ⟨wfx₂, hwfx₂, heq⟩ := Option.bind_eq_some_iff.mp hrun
      cases heq
      obtain ⟨-, hend, -, -⟩ := load_eq_some hfront
      obtain ⟨-, hfit, hlen₁⟩ := store_eq_some hbuf₁
      obtain ⟨-, -, hlen₂⟩ := store_eq_some hbuf₂
      have := intAdd_eq_some hwfx₁
      have := intAdd_eq_some hwfx₂
      exact ⟨hsrc, id, rfl, hlen₂.trans hlen₁, rfl, rfl, by dsimp only; omega, by omega⟩

theorem copyRound_length {contiguous remainder : ℤ} {buf : List UInt8}
    (hrun : copyRound src dst contiguous remainder = some buf) :
    buf.length = dst.buf.length ∧ dst.wfx ≤ dst.buf.length := by
  rw [copyRound] at hrun
  dsimp only at hrun
  by_cases hend : contiguous < src.size - src.rfx
  · rw [if_pos hend] at hrun
    obtain ⟨front, -, hrun⟩ := Option.bind_eq_some_iff.mp hrun
    obtain ⟨buf₁, hbuf₁, hrun⟩ := Option.bind_eq_some_iff.mp hrun
    obtain ⟨next, -, hrun⟩ := Option.bind_eq_some_iff.mp hrun
    obtain ⟨-, hfit, hlen₁⟩ := store_eq_some hbuf₁
    refine ⟨?_, by omega⟩
    by_cases hrest : remainder < src.size - src.rfx - contiguous
    · rw [if_pos hrest] at hrun
      obtain ⟨back, -, hbuf₂⟩ := Option.bind_eq_some_iff.mp hrun
      exact (store_eq_some hbuf₂).2.2.trans hlen₁
    · rw [if_neg hrest] at hrun
      obtain ⟨middle, -, hrun⟩ := Option.bind_eq_some_iff.mp hrun
      obtain ⟨buf₂, hbuf₂, hrun⟩ := Option.bind_eq_some_iff.mp hrun
      obtain ⟨back, -, hbuf₃⟩ := Option.bind_eq_some_iff.mp hrun
      exact (store_eq_some hbuf₃).2.2.trans ((store_eq_some hbuf₂).2.2.trans hlen₁)
  · rw [if_neg hend] at hrun
    obtain ⟨front, -, hrun⟩ := Option.bind_eq_some_iff.mp hrun
    obtain ⟨buf₁, hbuf₁, hrun⟩ := Option.bind_eq_some_iff.mp hrun
    obtain ⟨-, hfit, hlen₁⟩ := store_eq_some hbuf₁
    refine ⟨?_, by omega⟩
    by_cases hnone : contiguous - (src.size - src.rfx) = 0
    · rw [if_pos hnone] at hrun
      cases hrun
      exact hlen₁
    · rw [if_neg hnone] at hrun
      obtain ⟨middle, -, hrun⟩ := Option.bind_eq_some_iff.mp hrun
      obtain ⟨next, -, hrun⟩ := Option.bind_eq_some_iff.mp hrun
      obtain ⟨buf₂, hbuf₂, hrun⟩ := Option.bind_eq_some_iff.mp hrun
      obtain ⟨back, -, hbuf₃⟩ := Option.bind_eq_some_iff.mp hrun
      exact (store_eq_some hbuf₃).2.2.trans ((store_eq_some hbuf₂).2.2.trans hlen₁)

/-- After a split copy the write offset is the size of the second piece. -/
theorem copySplit_copied {toCopy contiguous : ℤ} {move : Bool} (hsrc : Ranges src)
    (hshort : contiguous < toCopy)
    (hrun : copySplit src dst toCopy contiguous move = some (src', dst')) :
    Copied src dst src' dst' toCopy ∧ dst'.wfx = toCopy - contiguous := by
  rw [copySplit] at hrun
  by_cases hmove : move = true
  · rw [if_pos hmove] at hrun
    obtain ⟨⟨s₁, k₁, front⟩, hread₁, hrun⟩ := Option.bind_eq_some_iff.mp hrun
    obtain ⟨buf₁, hbuf₁, hrun⟩ := Option.bind_eq_some_iff.mp hrun
    obtain ⟨⟨s₂, k₂, back⟩, hread₂, hrun⟩ := Option.bind_eq_some_iff.mp hrun
    obtain ⟨buf₂, hbuf₂, heq⟩ := Option.bind_eq_some_iff.mp hrun
    cases heq
    obtain ⟨hranges₁, hagrees₁, -⟩ := rbufRead_keeps hsrc hread₁
    obtain ⟨hranges₂, hagrees₂, -⟩ := rbufRead_keeps hranges₁ hread₂
    obtain ⟨-, hfit, hlen₁⟩ := store_eq_some hbuf₁
    obtain ⟨-, -, hlen₂⟩ := store_eq_some hbuf₂
    exact ⟨⟨hranges₂, fun h => hagrees₂ (hagrees₁ h), rfl, hlen₂.trans hlen₁, rfl, rfl,
      by dsimp only; omega, by omega⟩, rfl⟩
  · rw [if_neg hmove] at hrun
    by_cases hstraight : src.rfx < src.wfx
    · rw [if_pos hstraight] at hrun
      obtain ⟨front, -, hrun⟩ := Option.bind_eq_some_iff.mp hrun
      obtain ⟨buf₁, hbuf₁, hrun⟩ := Option.bind_eq_some_iff.mp hrun
      obtain ⟨next, -, hrun⟩ := Option.bind_eq_some_iff.mp hrun
      obtain ⟨back, -, hrun⟩ := Option.bind_eq_some_iff.mp hrun
      obtain ⟨buf₂, hbuf₂, heq⟩ := Option.bind_eq_some_iff.mp hrun
      cases heq
      obtain ⟨-, hfit, hlen₁⟩ := store_eq_some hbuf₁
      obtain ⟨-, -, hlen₂⟩ := store_eq_some hbuf₂
      exact ⟨⟨hsrc, id, rfl, hlen₂.trans hlen₁, rfl, rfl, by dsimp only; omega, by omega⟩, rfl⟩
    · rw [if_neg hstraight] at hrun
      obtain ⟨buf, hbuf, heq⟩ := Option.bind_eq_some_iff.mp hrun
      cases heq
      obtain ⟨hlen, hfit⟩ := copyRound_length hbuf
      exact ⟨⟨hsrc, id, rfl, hlen, rfl, rfl, by dsimp only; omega, hfit⟩, rfl⟩

theorem copySize_bounds {len : ℤ} (hsrc : Ranges src) (hdst : Ranges dst) (hlen : 0 ≤ len) :
    0 ≤ copySize src dst len ∧ copySize src dst len ≤ len ∧ copySize src dst len ≤ src.used ∧
      copySize src dst len ≤ dst.size - dst.used := by
  have hs := hsrc.used_nonneg
  have hd := hdst.used_le
  simp only [copySize]
  split <;> split <;> omega

/-- A move or a copy takes no more than there is, and gives the destination a number of bytes
within its size. -/
theorem rbufCopyInternal_keeps {len k : ℤ} {move : Bool} (hsrc : Ranges src) (hdst : Ranges dst)
    (hlen : 0 ≤ len) (hrun : rbufCopyInternal src dst len move = some (src', dst', k)) :
    Ranges src' ∧ (Agrees src → Agrees src') ∧ Ranges dst' := by
  rw [rbufCopyInternal] at hrun
  by_cases hzero : len = 0
  · rw [if_pos hzero] at hrun
    cases hrun
    exact ⟨hsrc, id, hdst⟩
  rw [if_neg hzero] at hrun
  obtain ⟨⟨s, d⟩, hcopy, heq⟩ := Option.map_eq_some_iff.mp hrun
  simp only [Prod.mk.injEq] at heq
  obtain ⟨rfl, rfl, -⟩ := heq
  obtain ⟨hpos, -, -, hroom⟩ := copySize_bounds hsrc hdst hlen
  have hcopied : Copied src dst s d (copySize src dst len) := by
    by_cases hstraight : copySize src dst len ≤ contiguousSize dst
    · rw [if_pos hstraight] at hcopy
      exact copyStraight_copied hsrc hdst hpos hcopy
    · rw [if_neg hstraight] at hcopy
      exact (copySplit_copied hsrc (Int.not_le.mp hstraight) hcopy).1
  obtain ⟨hsource, hagrees, hsize, hlength, hrfx, hused, hwfx, hin⟩ := hcopied
  obtain ⟨hpos', hmax, hlen', hu₀, hu, hr₀, hw₀, hr⟩ := hdst
  refine ⟨hsource, hagrees, ?_⟩
  constructor <;> omega

/-! ## Runs -/

/-- The buffers that the functions of the library lead to.  Two buffers that take part in a
move or a copy are different ones. -/
inductive Reachable : RBuf → Prop where
  | create (size : ℤ) (hnonneg : 0 ≤ size) (hle : size ≤ INT_MAX) (mem : ℕ → UInt8) :
      Reachable (rbufCreate size mem)
  | step {rb rb' : RBuf} {op : RbufOp} {r : ℤ × List UInt8} (h : Reachable rb)
      (hrun : stepOp rb op = some (rb', r)) : Reachable rb'
  | readUntil {rb rb' : RBuf} {octet : UInt8} {maxsize k : ℤ} {out : List UInt8}
      (h : Reachable rb) (hrun : rbufReadUntil rb octet maxsize = some (rb', k, out)) :
      Reachable rb'
  | source {src dst src' dst' : RBuf} {len k : ℤ} {move : Bool} (hsrc : Reachable src)
      (hdst : Reachable dst) (hlen : 0 ≤ len)
      (hrun : rbufCopyInternal src dst len move = some (src', dst', k)) : Reachable src'
  | destination {src dst src' dst' : RBuf} {len k : ℤ} {move : Bool} (hsrc : Reachable src)
      (hdst : Reachable dst) (hlen : 0 ≤ len)
      (hrun : rbufCopyInternal src dst len move = some (src', dst', k)) : Reachable dst'

theorem ranges_create {size : ℤ} (hnonneg : 0 ≤ size) (hle : size ≤ INT_MAX) (mem : ℕ → UInt8) :
    Ranges (rbufCreate size mem) := by
  obtain ⟨n, hn⟩ : ∃ n, (if size = 0 then RBUF_DEFAULT_SIZE else size) = n := ⟨_, rfl⟩
  have hdefault : RBUF_DEFAULT_SIZE ≤ INT_MAX := by decide
  have hpos : 0 < n ∧ n ≤ INT_MAX := by
    rw [← hn]
    by_cases hzero : size = 0
    · rw [if_pos hzero]
      exact ⟨by decide, hdefault⟩
    · rw [if_neg hzero]
      omega
  rw [rbufCreate, hn]
  refine ⟨hpos.1, hpos.2, ?_, le_refl 0, hpos.1.le, le_refl 0, le_refl 0, Or.inl hpos.1.le⟩
  rw [List.length_map, List.length_range]
  dsimp only
  omega

theorem Reachable.ranges (h : Reachable rb) : Ranges rb := by
  induction h with
  | create size hnonneg hle mem => exact ranges_create hnonneg hle mem
  | step _ hrun ih => exact (stepOp_keeps ih hrun).1
  | readUntil _ hrun ih => exact (rbufReadUntil_keeps ih hrun).1
  | source _ _ hlen hrun ihsrc ihdst => exact (rbufCopyInternal_keeps ihsrc ihdst hlen hrun).1
  | destination _ _ hlen hrun ihsrc ihdst =>
      exact (rbufCopyInternal_keeps ihsrc ihdst hlen hrun).2.2

/-- A buffer of four bytes of which two are stored; the other two are zero. -/
def halfFull : RBuf := ⟨[97, 98, 0, 0], 4, 2, 0, 2, .blocking⟩

theorem halfFull_reachable : Reachable halfFull :=
  .step (.create 4 (by decide) (by decide) fun _ => 0)
    (by decide : stepOp (rbufCreate 4 fun _ => 0) (.write [97, 98]) = some (halfFull, 2, []))

end RBuf
end LibHL
