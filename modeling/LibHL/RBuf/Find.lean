import LibHL.RBuf.Reachable

/-!
# Looking for an octet

The loops of `rbuf_find` run one position too far: the write offset itself is looked at, a
position that holds no stored byte and may be the one behind the array.
-/

namespace LibHL
namespace RBuf

open Circular

variable {rb : RBuf} {octet : UInt8} {buf l l' : List UInt8} {n i : ℕ}

/-! ## One loop -/

/-- A round inside the array. -/
theorem scan_succ (hi : i < buf.length) :
    scan buf octet (n + 1) i =
      if buf[i] = octet then some (some (i : ℤ)) else scan buf octet n ((i + 1 : ℕ) : ℤ) := by
  rw [scan, byteAt_natCast, List.getElem?_eq_getElem hi]
  rfl

theorem scan_of_mem :
    ∀ {n i : ℕ}, octet ∈ (buf.drop i).take n →
      scan buf octet n i = some (some ((i + ((buf.drop i).take n).idxOf octet : ℕ) : ℤ)) := by
  intro n
  induction n with
  | zero =>
      intro i hmem
      rw [List.take_zero] at hmem
      cases hmem
  | succ n ih =>
      intro i hmem
      have hi : i < buf.length := by
        by_contra hout
        rw [List.drop_of_length_le (Nat.not_lt.mp hout), List.take_nil] at hmem
        cases hmem
      rw [take_drop_succ hi] at hmem ⊢
      rw [scan_succ hi]
      by_cases hb : buf[i] = octet
      · rw [if_pos hb, hb, List.idxOf_cons_self, Nat.add_zero]
      · have hmem' := (List.mem_cons.mp hmem).resolve_left (Ne.symm hb)
        rw [if_neg hb, ih hmem', List.idxOf_cons_ne _ hb, Nat.succ_eq_add_one, Nat.add_assoc,
          Nat.add_comm 1]

/-- A loop that stays inside the array. -/
theorem scan_of_notMem :
    ∀ {n i : ℕ}, octet ∉ (buf.drop i).take n → i + n ≤ buf.length ∨ n = 0 →
      scan buf octet n i = some none := by
  intro n
  induction n with
  | zero =>
      intro i _ _
      rfl
  | succ n ih =>
      intro i hmem hin
      have hi : i < buf.length := by omega
      rw [take_drop_succ hi, List.mem_cons, not_or] at hmem
      rw [scan_succ hi, if_neg (Ne.symm hmem.1)]
      exact ih hmem.2 (by omega)

/-- A loop that leaves it. -/
theorem scan_outside :
    ∀ {n i : ℕ}, octet ∉ (buf.drop i).take n → buf.length < i + n → 0 < n →
      scan buf octet n i = none := by
  intro n
  induction n with
  | zero =>
      intro i _ _ hn
      exact absurd hn (Nat.lt_irrefl 0)
  | succ n ih =>
      intro i hmem hout _
      by_cases hi : i < buf.length
      · rw [take_drop_succ hi, List.mem_cons, not_or] at hmem
        rw [scan_succ hi, if_neg (Ne.symm hmem.1)]
        exact ih hmem.2 (by omega) (by omega)
      · rw [scan, byteAt_natCast, List.getElem?_eq_none (Nat.not_lt.mp hi)]
        rfl

/-! ## Both loops -/

/-- The bytes of the array that the loops run over. -/
def lookedAt (rb : RBuf) : List UInt8 :=
  if rb.rfx < rb.wfx then
    (rb.buf.drop rb.rfx.toNat).take (rb.wfx + 1 - rb.rfx).toNat
  else
    rb.buf.drop rb.rfx.toNat ++ rb.buf.take (rb.wfx + 1).toNat

theorem rbufFind_of_mem (h : Ranges rb) (hused : rb.used ≠ 0) (hmem : octet ∈ lookedAt rb) :
    rbufFind rb octet = some ((lookedAt rb).idxOf octet : ℤ) := by
  obtain ⟨hpos, hmax, hlen, hu₀, hu, hr₀, hw₀, hr⟩ := h
  obtain ⟨buf, sz, used, rfx, wfx, mode⟩ := rb
  dsimp only at *
  subst hlen
  lift rfx to ℕ using hr₀
  have hrfx : rfx ≤ buf.length := by omega
  rw [rbufFind, if_neg hused]
  rw [lookedAt] at hmem ⊢
  dsimp only at hmem ⊢
  rw [Int.toNat_natCast] at hmem ⊢
  by_cases hstraight : (rfx : ℤ) < wfx
  · rw [if_pos hstraight] at hmem ⊢
    rw [if_pos hstraight, scan_of_mem hmem]
    show some (((rfx + _ : ℕ) : ℤ) - rfx) = _
    rw [Nat.cast_add, add_sub_cancel_left]
  · rw [if_neg hstraight] at hmem ⊢
    have hfront : (buf.drop rfx).take ((buf.length : ℤ) - rfx).toNat = buf.drop rfx := by
      rw [List.take_of_length_le]
      rw [List.length_drop]
      omega
    rw [if_neg hstraight]
    by_cases hfirst : octet ∈ buf.drop rfx
    · rw [← hfront] at hfirst
      rw [scan_of_mem hfirst, hfront, List.idxOf_append_of_mem (hfront ▸ hfirst)]
      show some (((rfx + _ : ℕ) : ℤ) - rfx) = _
      rw [Nat.cast_add, add_sub_cancel_left]
    · have hsecond : octet ∈ (buf.drop 0).take (wfx + 1).toNat :=
        (List.mem_append.mp hmem).resolve_left hfirst
      have hzero : scan buf octet (wfx + 1).toNat 0 = _ := scan_of_mem hsecond
      rw [List.idxOf_append_of_notMem hfirst, List.length_drop]
      rw [← hfront] at hfirst
      rw [scan_of_notMem hfirst (by omega)]
      show (scan buf octet (wfx + 1).toNat 0).bind _ = _
      rw [hzero, List.drop_zero]
      show some ((buf.length : ℤ) - rfx + ((0 + _ : ℕ) : ℤ)) = _
      rw [Nat.zero_add]
      congr 1
      omega

theorem rbufFind_of_notMem (h : Ranges rb) (hused : rb.used ≠ 0) (hmem : octet ∉ lookedAt rb) :
    rbufFind rb octet = if rb.wfx < rb.size then some (-1) else none := by
  obtain ⟨hpos, hmax, hlen, hu₀, hu, hr₀, hw₀, hr⟩ := h
  obtain ⟨buf, sz, used, rfx, wfx, mode⟩ := rb
  dsimp only at *
  subst hlen
  lift rfx to ℕ using hr₀
  have hrfx : rfx ≤ buf.length := by omega
  rw [rbufFind, if_neg hused]
  rw [lookedAt] at hmem
  dsimp only at hmem ⊢
  rw [Int.toNat_natCast] at hmem
  by_cases hstraight : (rfx : ℤ) < wfx
  · rw [if_pos hstraight] at hmem ⊢
    by_cases hin : wfx < buf.length
    · rw [if_pos hin, scan_of_notMem hmem (by omega)]
      rfl
    · rw [if_neg hin, scan_outside hmem (by omega) (by omega)]
      rfl
  · rw [if_neg hstraight, List.mem_append, not_or] at hmem
    have hfirst : octet ∉ (buf.drop rfx).take ((buf.length : ℤ) - rfx).toNat :=
      fun hmem' => hmem.1 (List.mem_of_mem_take hmem')
    have hsecond : octet ∉ (buf.drop 0).take (wfx + 1).toNat := hmem.2
    rw [if_neg hstraight, scan_of_notMem hfirst (by omega)]
    show (scan buf octet (wfx + 1).toNat ((0 : ℕ) : ℤ)).bind _ = _
    by_cases hin : wfx < buf.length
    · rw [if_pos hin, scan_of_notMem hsecond (by omega)]
      rfl
    · rw [if_neg hin, scan_outside hsecond (by omega) (by omega)]
      rfl

/-! ## The stored bytes -/

theorem idxOf_of_prefix (h : l <+: l') (hmem : octet ∈ l) : l'.idxOf octet = l.idxOf octet := by
  obtain ⟨more, rfl⟩ := h
  exact List.idxOf_append_of_mem hmem

theorem lookedAt_along (h : Ranges rb) (hused : rb.used ≠ 0) :
    lookedAt rb <+: rb.buf.rotate rb.rfx.toNat ++ rb.buf.rotate rb.rfx.toNat := by
  have hrfx : rb.rfx.toNat ≤ rb.buf.length := by
    have := h.length_buf
    have := h.rfx_le
    omega
  rw [List.rotate_eq_drop_append_take hrfx, lookedAt, List.append_assoc]
  by_cases hstraight : rb.rfx < rb.wfx
  · rw [if_pos hstraight]
    exact (List.take_prefix _ _).trans (List.prefix_append _ _)
  · rw [if_neg hstraight]
    have hwhole : rb.buf.take rb.rfx.toNat ++ (rb.buf.drop rb.rfx.toNat ++
        rb.buf.take rb.rfx.toNat) = rb.buf ++ rb.buf.take rb.rfx.toNat := by
      rw [← List.append_assoc, List.take_append_drop]
    rw [hwhole, List.prefix_append_right_inj]
    exact (List.take_prefix _ _).trans (List.prefix_append _ _)

theorem contents_along (rb : RBuf) :
    contents rb <+: rb.buf.rotate rb.rfx.toNat ++ rb.buf.rotate rb.rfx.toNat :=
  (List.take_prefix _ _).trans (List.prefix_append _ _)

theorem idxOf_lookedAt (h : Ranges rb) (hused : rb.used ≠ 0) (hmem : octet ∈ lookedAt rb)
    (hstored : octet ∈ contents rb) :
    (lookedAt rb).idxOf octet = (contents rb).idxOf octet := by
  rw [← idxOf_of_prefix (lookedAt_along h hused) hmem,
    ← idxOf_of_prefix (contents_along rb) hstored]

/-- `rbuf_find` finds the first stored `octet`, without leaving the array. -/
def FindsStored (rb : RBuf) (octet : UInt8) : Prop :=
  rbufFind rb octet =
    some (if octet ∈ contents rb then ((contents rb).idxOf octet : ℤ) else -1)

/-- Nothing is stored, or the loops meet the octet exactly if it is stored, and meet it or end
inside the array. -/
def LooksRight (rb : RBuf) (octet : UInt8) : Prop :=
  rb.used = 0 ∨
    ((octet ∈ contents rb ↔ octet ∈ lookedAt rb) ∧ (octet ∈ lookedAt rb ∨ rb.wfx < rb.size))

/-- `rbuf_find` is right exactly if the position it looks at in vain makes no difference. -/
theorem findsStored_iff (h : Reachable rb) (octet : UInt8) :
    FindsStored rb octet ↔ LooksRight rb octet := by
  have hranges := h.ranges
  rw [FindsStored, LooksRight]
  by_cases hused : rb.used = 0
  · have hnil : contents rb = [] := by
      rw [contents, hused]
      exact window_zero _ _
    rw [rbufFind, if_pos hused, hnil, if_neg List.not_mem_nil]
    exact ⟨fun _ => Or.inl hused, fun _ => rfl⟩
  by_cases hmem : octet ∈ lookedAt rb
  · rw [rbufFind_of_mem hranges hused hmem]
    constructor
    · intro hfind
      have hstored : octet ∈ contents rb := by
        by_contra hnot
        rw [if_neg hnot, Option.some.injEq] at hfind
        omega
      exact Or.inr ⟨iff_of_true hstored hmem, Or.inl hmem⟩
    · rintro (hnone | ⟨hiff, -⟩)
      · exact absurd hnone hused
      · have hstored := hiff.mpr hmem
        rw [if_pos hstored, idxOf_lookedAt hranges hused hmem hstored]
  · rw [rbufFind_of_notMem hranges hused hmem]
    constructor
    · intro hfind
      have hin : rb.wfx < rb.size := by
        by_contra hout
        rw [if_neg hout] at hfind
        cases hfind
      have hnot : octet ∉ contents rb := by
        intro hstored
        rw [if_pos hin, if_pos hstored, Option.some.injEq] at hfind
        omega
      exact Or.inr ⟨iff_of_false hnot hmem, Or.inr hin⟩
    · rintro (hnone | ⟨hiff, hin⟩)
      · exact absurd hnone hused
      · rw [if_pos (hin.resolve_left hmem), if_neg fun hstored => hmem (hiff.mp hstored)]

/-! ## Offsets that delimit the bytes -/

/-- The write offset of a buffer that is not empty, inside the array or at its end. -/
theorem Delimits.wfx_cases {size used rfx wfx : ℕ} (h : Delimits size used rfx wfx)
    (hused : used ≠ 0) (hoff : rfx < size ∨ 0 < wfx) :
    (rfx < wfx ∧ wfx = rfx + used) ∨ (wfx ≤ rfx ∧ size + wfx = rfx + used) := by
  obtain ⟨hu, hr, hw, hmod⟩ := h
  have hdvd : (size : ℤ) ∣ (rfx + used : ℕ) - wfx := Nat.modEq_iff_dvd.mp hmod.symm
  have hturns := turns_of_dvd (by omega) hdvd (by omega) (by omega)
  omega

/-- The loops run over the stored bytes and over the one at the write offset, if there is
one. -/
theorem lookedAt_eq {size : ℕ} (h : InBounds rb size) (hused : rb.used ≠ 0)
    (hoff : rb.rfx < rb.size ∨ 0 < rb.wfx) :
    lookedAt rb = contents rb ++ (byteAt rb.buf rb.wfx).toList := by
  obtain ⟨used, rfx, wfx, heq, hd⟩ := h.exists_natState
  obtain ⟨buf, sz, used', rfx', wfx', mode⟩ := rb
  dsimp only at *
  rw [natState, RBuf.mk.injEq] at heq
  obtain ⟨-, rfl, rfl, rfl, rfl, -⟩ := heq
  rw [lookedAt, contents, byteAt_natCast]
  dsimp only
  rw [Int.toNat_natCast, Int.toNat_natCast]
  have hr := hd.rfx_le
  have hbyte : ∀ n, (buf.drop n).take 1 = buf[n]?.toList := by
    intro n
    rw [← List.head?_drop]
    cases buf.drop n with
    | nil => rfl
    | cons b bs => rfl
  rcases hd.wfx_cases (by omega) (by omega) with ⟨hstraight, hw⟩ | ⟨hround, hw⟩
  · have hcount : ((wfx : ℤ) + 1 - rfx).toNat = used + 1 := by omega
    have hfit : used ≤ buf.length - rfx := by
      have := hd.wfx_le
      omega
    rw [if_pos (by omega), hcount, window_straight hfit hr, List.take_add, List.drop_drop,
      ← hw, hbyte]
  · have hcount : ((wfx : ℤ) + 1).toNat = wfx + 1 := by omega
    have hpiece : (buf.take rfx).take (used - (buf.length - rfx)) = buf.take wfx := by
      rw [List.take_take, List.take_eq_take_iff]
      omega
    have hfront : (buf.drop rfx).take used = buf.drop rfx := by
      rw [List.take_of_length_le]
      rw [List.length_drop]
      omega
    rw [if_neg (by omega), hcount, window, List.rotate_eq_drop_append_take hr, List.take_append,
      List.length_drop, hpiece, hfront, List.take_add, List.append_assoc, hbyte]

/-- So the octet has to be stored, or the write offset has to lie in the array, on another
byte. -/
theorem looksRight_iff_of_inBounds {size : ℕ} (h : InBounds rb size)
    (hoff : rb.rfx < rb.size ∨ 0 < rb.wfx) (octet : UInt8) :
    LooksRight rb octet ↔
      rb.used = 0 ∨ octet ∈ contents rb ∨ ∃ b, byteAt rb.buf rb.wfx = some b ∧ b ≠ octet := by
  by_cases hused : rb.used = 0
  · exact iff_of_true (Or.inl hused) (Or.inl hused)
  have hin : rb.wfx < rb.size ↔ ∃ b, byteAt rb.buf rb.wfx = some b := by
    have := h.size_eq
    have := h.length_buf
    have := h.wfx_nonneg
    rw [byteAt, if_pos h.wfx_nonneg]
    constructor
    · intro hlt
      exact ⟨_, List.getElem?_eq_getElem (by omega)⟩
    · rintro ⟨b, hb⟩
      obtain ⟨hlt, -⟩ := List.getElem?_eq_some_iff.mp hb
      omega
  rw [LooksRight, lookedAt_eq h hused hoff, hin, List.mem_append]
  cases byteAt rb.buf rb.wfx with
  | none => simp [hused]
  | some b =>
      by_cases hstored : octet ∈ contents rb
      · simp [hstored]
      · simp [hstored, hused, eq_comm]

/-! ## The byte at the write offset -/

/-- The zero behind the stored bytes is found. -/
theorem find_finds_stale :
    ¬ ∀ rb, Reachable rb → ∀ octet : UInt8, FindsStored rb octet := by
  intro hall
  have hfind := hall halfFull halfFull_reachable 0
  have hstale : rbufFind halfFull 0 = some 2 := by
    decide
  rw [FindsStored, hstale] at hfind
  exact absurd hfind (by decide)

/-- The equivalence for an octet that is nowhere. -/
theorem findsStored_iff_halfFull : FindsStored halfFull 122 ↔ LooksRight halfFull 122 :=
  findsStored_iff halfFull_reachable 122

end RBuf
end LibHL
