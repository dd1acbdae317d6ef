import LibHL.FBuf.Layout
import Mathlib.Data.List.DropRight

/-!
# The operations on one flat buffer

Every operation is compared with its counterpart on byte strings: a string that
does not fit the limit is refused, and everything else is an append, a
replacement, a removed prefix, a stripped or a truncated string.
-/

namespace LibHL
namespace FBuf

open Storage

variable {fb fb' : FBuf} {maxlen newlen len n : ℕ} {s t : List UInt8}
  {pre post : List (Option UInt8)} {c : Option UInt8}

/-! ## Byte strings under a limit -/

/-- Append `t`, or fail. -/
def appendWithin (maxlen : ℕ) (s t : List UInt8) : List UInt8 × ℤ :=
  if Exceeds maxlen (s.length + t.length) then (s, -1) else (s ++ t, t.length)

/-- Append `t`, where there is nothing to do for the empty string. -/
def addWithin (maxlen : ℕ) (s t : List UInt8) : List UInt8 × ℤ :=
  if t = [] then (s, 0) else appendWithin maxlen s t

/-- Replace the string by `t`, or fail. -/
def replaceWithin (maxlen : ℕ) (s t : List UInt8) : List UInt8 × ℤ :=
  if Exceeds maxlen t.length then (s, -1) else (t, t.length)

/-- Append `t`, or fail already if the estimate of its length does not fit. -/
def printWithin (maxlen : ℕ) (s t : List UInt8) : List UInt8 × ℤ :=
  if Exceeds maxlen (s.length + FBUF_LINE_EST) then (s, -1) else appendWithin maxlen s t

/-- The limit and the content of a buffer; a storage is terminated behind its
content. -/
structure Holds (fb : FBuf) (maxlen : ℕ) (s : List UInt8) : Prop where
  sized : Sized fb maxlen
  short : s.length < 2 ^ 31
  place : (NoStorage fb ∧ s = []) ∨ ∃ pre post, Placed fb s pre (some 0 :: post)

theorem Holds.used (h : Holds fb maxlen s) : fb.used = s.length := by
  rcases h.place with ⟨hno, rfl⟩ | ⟨pre, post, hp⟩
  · exact hno.used
  · exact hp.used

theorem Holds.skip_le (h : Holds fb maxlen s) : fb.skip ≤ fb.len := by
  rcases h.place with ⟨hno, -⟩ | ⟨pre, post, hp⟩
  · rw [hno.skip]
    exact Nat.zero_le _
  · rw [hp.skip, hp.len]
    omega

theorem Holds.placed (h : Holds fb maxlen s) (hdata : fb.data.isSome) :
    ∃ pre post, Placed fb s pre (some 0 :: post) := by
  rcases h.place with ⟨hno, -⟩ | hp
  · rw [hno.data] at hdata
    cases hdata
  · exact hp

theorem Placed.holds (hp : Placed fb s pre (some 0 :: post)) (h : Sized fb maxlen)
    (hshort : s.length < 2 ^ 31) : Holds fb maxlen s :=
  ⟨h, hshort, Or.inr ⟨pre, post, hp⟩⟩

/-- Room for `newlen` bytes and the terminator. -/
theorem Holds.extend (h : Holds fb maxlen s) (hn : newlen + 1 ≤ 2 ^ 31 + 2 ^ 11)
    (hfit : ¬ Exceeds maxlen newlen) :
    ∃ fb' pre c post, fbufExtend (fun _ => true) fb newlen = some (fb', fb'.len) ∧
      0 < fb'.len ∧ Placed fb' s pre (c :: post) ∧ Sized fb' maxlen ∧
      newlen + 1 ≤ s.length + (post.length + 1) := by
  rcases h.place with ⟨hno, rfl⟩ | ⟨pre, post, hp⟩
  · obtain ⟨fb', c, post, hrun, hpos, hp, hs, hroom⟩ := fbufExtend_noStorage h.sized hno hn hfit
    exact ⟨fb', [], c, post, hrun, hpos, hp, hs, by simpa using hroom⟩
  · exact fbufExtend_placed h.sized hp hn hfit

theorem Holds.extend_exceeds (h : Holds fb maxlen s) (hn : newlen + 1 ≤ 2 ^ 31 + 2 ^ 11)
    (hover : Exceeds maxlen newlen) :
    fbufExtend (fun _ => true) fb newlen = some (fb, 0) :=
  fbufExtend_exceeds _ h.sized h.skip_le hn hover

/-! ## Writing behind the content -/

theorem Placed.offset (hp : Placed fb s pre post) (h : Sized fb maxlen) :
    uadd fb.skip fb.used = (pre ++ s.map some).length := by
  have hl := hp.len
  have hlt := h.len_lt
  rw [uadd_of_lt (by rw [hp.skip, hp.used]; omega), hp.skip, hp.used, List.length_append,
    List.length_map]

theorem Placed.poke_behind (hp : Placed fb s pre post) (h : Sized fb maxlen)
    (xs : List (Option UInt8)) (hroom : xs.length ≤ post.length) :
    poke fb.data (uadd fb.skip fb.used) xs =
      some (some (pre ++ s.map some ++ xs ++ post.drop xs.length)) := by
  rw [hp.offset h, hp.data]
  exact poke_mid hroom

theorem terminate_spec (hp : Placed fb s pre (c :: post)) (h : Sized fb maxlen) :
    ∃ fb', terminate fb = some fb' ∧ Placed fb' s pre (some 0 :: post) ∧ Sized fb' maxlen ∧
      fb'.used = fb.used := by
  have hpoke := hp.poke_behind h [some 0] (by simp)
  refine ⟨{ fb with data := some (pre ++ s.map some ++ some 0 :: post) }, ?_,
    ⟨rfl, hp.skip, hp.used, ?_⟩, h.with_len h.capped h.len_lt _ _ _, rfl⟩
  · rw [terminate, hpoke]
    simp
  · have hl := hp.len
    rw [List.length_cons] at hl ⊢
    exact hl

/-- The buffer after `t` has been copied behind the content. -/
theorem Placed.append (hp : Placed fb s pre (c :: post)) (h : Sized fb maxlen)
    (hroom : t.length ≤ post.length) :
    ∃ c' post', post'.length + t.length = post.length ∧
      poke fb.data (uadd fb.skip fb.used) (t.map some) =
        some (some (pre ++ (s ++ t).map some ++ c' :: post')) ∧
      Placed { fb with
        data := some (pre ++ (s ++ t).map some ++ c' :: post')
        used := uadd fb.used t.length } (s ++ t) pre (c' :: post') := by
  have hl := hp.len
  have hlt := h.len_lt
  rw [List.length_cons] at hl
  have hpoke := hp.poke_behind h (t.map some) (by
    rw [List.length_map, List.length_cons]
    omega)
  obtain ⟨c', post', hrest⟩ : ∃ c' post', (c :: post).drop (t.map some).length = c' :: post' := by
    refine List.exists_cons_of_length_pos ?_
    rw [List.length_drop, List.length_map, List.length_cons]
    omega
  have hcount := congrArg List.length hrest
  rw [List.length_drop, List.length_map, List.length_cons, List.length_cons] at hcount
  refine ⟨c', post', by omega, ?_, rfl, hp.skip, ?_, ?_⟩
  · rw [hpoke, hrest, List.map_append, List.append_assoc pre]
  · show uadd fb.used t.length = _
    rw [uadd_of_lt (by rw [hp.used]; omega), hp.used, List.length_append]
  · show fb.len = _
    rw [List.length_append, List.length_cons]
    omega

/-! ## Adding -/

theorem fbufAddBinary_spec (h : Holds fb maxlen s) (hne : t ≠ [])
    (hshort : s.length + t.length < 2 ^ 31) :
    ∃ fb', fbufAddBinary (fun _ => true) fb (t.map some) =
        some (fb', (appendWithin maxlen s t).2) ∧
      Holds fb' maxlen (appendWithin maxlen s t).1 := by
  have hrange : UINT_RANGE = 2 ^ 32 := rfl
  have hlen : ¬ (t.map some).length = 0 := by
    rw [List.length_map]
    exact fun hzero => hne (List.eq_nil_of_length_eq_zero hzero)
  have hsum : uadd fb.used (t.map some).length = s.length + t.length := by
    rw [h.used, List.length_map, uadd_of_lt (by omega)]
  rw [fbufAddBinary, if_neg hlen, hsum, appendWithin]
  by_cases hover : Exceeds maxlen (s.length + t.length)
  · rw [h.extend_exceeds (by omega) hover, if_pos hover]
    exact ⟨fb, rfl, h⟩
  · obtain ⟨fb₁, pre, c, post, hrun, hpos, hp, hs, hroom⟩ := h.extend (by omega) hover
    obtain ⟨c', post', -, hpoke, hp'⟩ := hp.append (t := t) hs (by omega)
    have hs' := hs.with_len hs.capped hs.len_lt (some (pre ++ (s ++ t).map some ++ c' :: post'))
      (uadd fb₁.used t.length) fb₁.skip
    obtain ⟨fb₂, hterm, hp₂, hs₂, -⟩ := terminate_spec hp' hs'
    have hzero : ¬ fb₁.len = 0 := hpos.ne'
    refine ⟨fb₂, ?_, ?_⟩
    · rw [hrun, if_neg hover]
      simp only [Option.bind_eq_bind, Option.bind_some]
      rw [if_neg hzero, hpoke]
      simp only [Option.bind_some, List.length_map]
      rw [hterm]
      rfl
    · rw [if_neg hover]
      exact hp₂.holds hs₂ (by rw [List.length_append]; exact hshort)

theorem fbufAdd_spec (h : Holds fb maxlen s) (str : List UInt8)
    (hshort : s.length + (cstring str).length < 2 ^ 31) :
    ∃ fb', fbufAdd (fun _ => true) fb str =
        some (fb', (addWithin maxlen s (cstring str)).2) ∧
      Holds fb' maxlen (addWithin maxlen s (cstring str)).1 := by
  rw [fbufAdd, addWithin]
  by_cases hnil : cstring str = []
  · rw [if_pos hnil, if_pos hnil]
    exact ⟨fb, rfl, h⟩
  · rw [if_neg hnil, if_neg hnil]
    exact fbufAddBinary_spec h hnil hshort

theorem fbufDuplicate_spec (h : Holds fb maxlen s) :
    ∃ fb', fbufDuplicate (fun _ => true) fb = some fb' ∧ Holds fb' maxlen s := by
  have hnew : Sized (fbufCreate maxlen) maxlen :=
    ⟨rfl, rfl, rfl, rfl, h.sized.maxlen_lt, fun _ => Nat.zero_le _, Nat.two_pow_pos 32⟩
  have hempty : Holds (fbufCreate maxlen) maxlen [] :=
    ⟨hnew, by decide, Or.inl ⟨⟨rfl, rfl, rfl, rfl⟩, rfl⟩⟩
  rw [fbufDuplicate, h.sized.maxlen_eq]
  by_cases hs : s = []
  · have hused : ¬ fb.used ≠ 0 := by
      rw [h.used, hs]
      exact fun hne => hne rfl
    rw [if_neg hused, hs]
    exact ⟨fbufCreate maxlen, rfl, hempty⟩
  · have hlen : s.length ≠ 0 := fun hzero => hs (List.eq_nil_of_length_eq_zero hzero)
    have hused : fb.used ≠ 0 := by
      rw [h.used]
      exact hlen
    rcases h.place with ⟨-, hnil⟩ | ⟨pre, post, hp⟩
    · exact absurd hnil hs
    have hpeek : peek fb.data fb.skip fb.used = some (s.map some) := by
      rw [hp.data, hp.skip]
      exact peek_mid (by rw [hp.used, List.length_map])
    -- The content has passed the same limit before.
    have hfit : ¬ Exceeds maxlen (([] : List UInt8).length + s.length) := by
      rintro ⟨hne, hlt⟩
      have hcap := h.sized.capped hne
      have hl := hp.len
      rw [List.length_cons] at hl
      rw [List.length_nil] at hlt
      omega
    obtain ⟨fb', hrun, h'⟩ := fbufAddBinary_spec hempty hs (by simpa using h.short)
    rw [appendWithin, if_neg hfit] at hrun h'
    refine ⟨fb', ?_, h'⟩
    rw [if_pos hused, hpeek]
    simp only [Option.bind_eq_bind, Option.bind_some, hrun]

theorem fbufConcat_spec {src : FBuf} {maxlen' : ℕ} (h : Holds fb maxlen s)
    (hsrc : Holds src maxlen' t) (hshort : s.length + t.length < 2 ^ 31) :
    ∃ fb', fbufConcat (fun _ => true) fb src = some (fb', (addWithin maxlen s t).2) ∧
      Holds fb' maxlen (addWithin maxlen s t).1 := by
  have hrange : UINT_RANGE = 2 ^ 32 := rfl
  rw [fbufConcat, hsrc.used, addWithin]
  by_cases hnil : t = []
  · rw [if_pos hnil, hnil]
    exact ⟨fb, rfl, h⟩
  have hlen : ¬ t.length = 0 := fun hzero => hnil (List.eq_nil_of_length_eq_zero hzero)
  dsimp only
  rw [if_neg hlen, if_neg hnil, h.used, uadd_of_lt (by omega), appendWithin]
  by_cases hover : Exceeds maxlen (s.length + t.length)
  · simp only [h.extend_exceeds (by omega : s.length + t.length + 1 ≤ 2 ^ 31 + 2 ^ 11) hover,
      Option.bind_eq_bind, Option.bind_some, if_pos hover]
    exact ⟨fb, rfl, h⟩
  · obtain ⟨fb₁, pre, c, post, hrun, hpos, hp, hs, hroom⟩ := h.extend (by omega) hover
    rcases hsrc.place with ⟨-, hnil'⟩ | ⟨pre', post', hsp⟩
    · exact absurd hnil' hnil
    have hzero : ¬ fb₁.len = 0 := hpos.ne'
    -- The terminator of the source is copied with its content.
    have hadd : uadd t.length 1 = (t.map some ++ [some 0]).length := by
      rw [uadd_of_lt (by omega), List.length_append, List.length_map]
      rfl
    have hpeek : peek src.data src.skip (uadd t.length 1) = some (t.map some ++ [some 0]) := by
      have hsplit : src.data = some (pre' ++ (t.map some ++ [some 0]) ++ post') := by
        rw [hsp.data]
        simp
      rw [hsplit, hsp.skip]
      exact peek_mid hadd
    have hpoke := hp.poke_behind hs (t.map some ++ [some 0]) (by simp; omega)
    have hl := hp.len
    rw [List.length_cons] at hl
    have hlt := hs.len_lt
    have hp' : Placed { fb₁ with
        data := some (pre ++ s.map some ++ (t.map some ++ [some 0]) ++
          (c :: post).drop (t.map some ++ [some 0]).length)
        used := uadd fb₁.used t.length } (s ++ t) pre
        (some 0 :: (c :: post).drop (t.map some ++ [some 0]).length) := by
      refine ⟨by simp, hp.skip, ?_, ?_⟩
      · show uadd fb₁.used t.length = _
        rw [uadd_of_lt (by rw [hp.used]; omega), hp.used, List.length_append]
      · show fb₁.len = _
        simp
        omega
    have h' := hp'.holds (hs.with_len hs.capped hs.len_lt _ _ _)
      (by rw [List.length_append]; exact hshort)
    rw [hrun, if_neg hover]
    refine ⟨_, ?_, h'⟩
    simp only [Option.bind_eq_bind, Option.bind_some, if_neg hzero, hpeek, hpoke]

/-! ## Replacing -/

/-- The buffer after the content has been replaced by the bytes that were copied to
its start. -/
theorem Placed.replace (hp : Placed fb s pre post) (c' : Option UInt8)
    (xs : List (Option UInt8)) (hlen : t.length + 1 + xs.length = s.length + post.length) :
    Placed { fb with data := some (pre ++ t.map some ++ c' :: xs), used := t.length }
      t pre (c' :: xs) := by
  refine ⟨rfl, hp.skip, rfl, ?_⟩
  have hl := hp.len
  show fb.len = _
  rw [List.length_cons]
  omega

theorem fbufSet_spec (h : Holds fb maxlen s) (str : List UInt8)
    (hshort : (cstring str).length < 2 ^ 31) :
    ∃ fb', fbufSet (fun _ => true) fb str =
        some (fb', (replaceWithin maxlen s (cstring str)).2) ∧
      Holds fb' maxlen (replaceWithin maxlen s (cstring str)).1 := by
  rw [fbufSet, replaceWithin]
  generalize cstring str = t at *
  dsimp only
  by_cases hover : Exceeds maxlen t.length
  · rw [h.extend_exceeds (by omega) hover, if_pos hover]
    exact ⟨fb, rfl, h⟩
  · obtain ⟨fb₁, pre, c, post, hrun, hpos, hp, hs, hroom⟩ := h.extend (by omega) hover
    have hzero : ¬ fb₁.len = 0 := hpos.ne'
    have hfits : (t.map some ++ [some (0 : UInt8)]).length ≤ (s.map some ++ c :: post).length := by
      simp
      omega
    have hpoke : poke fb₁.data fb₁.skip (t.map some ++ [some 0]) =
        some (some (pre ++ t.map some ++ some 0 ::
          (s.map some ++ c :: post).drop (t.map some ++ [some (0 : UInt8)]).length)) := by
      have hdata : fb₁.data = some (pre ++ (s.map some ++ c :: post)) := by
        rw [hp.data, List.append_assoc]
      rw [hdata, hp.skip, poke_mid hfits]
      simp
    have hp' := hp.replace (t := t) (some 0)
      ((s.map some ++ c :: post).drop (t.map some ++ [some (0 : UInt8)]).length)
      (by simp; omega)
    have h' := hp'.holds (hs.with_len hs.capped hs.len_lt _ _ _) hshort
    rw [hrun, if_neg hover]
    refine ⟨_, ?_, h'⟩
    simp only [Option.bind_eq_bind, Option.bind_some, if_neg hzero, hpoke]

theorem fbufClear_placed (hp : Placed fb s pre (c :: post)) :
    ∃ rest, fbufClear fb =
        some { fb with data := some (some 0 :: rest), used := 0, skip := 0 } ∧
      rest.length + 1 = fb.len := by
  have hl := hp.len
  rw [List.length_cons] at hl
  have hpos : 0 < fb.len := by omega
  have hroom : [some (0 : UInt8)].length ≤ (pre ++ s.map some ++ c :: post).length := by
    simp
    omega
  have hpoke := poke_mid (a := []) hroom
  rw [List.nil_append, List.nil_append] at hpoke
  refine ⟨(pre ++ s.map some ++ c :: post).drop 1, ?_, ?_⟩
  · rw [fbufClear, if_pos hpos, hp.data]
    exact congrArg (fun d => d.bind fun d => some { fb with data := d, used := 0, skip := 0 })
      hpoke
  · simp
    omega

theorem fbufClear_spec (h : Holds fb maxlen s) :
    ∃ fb', fbufClear fb = some fb' ∧ Holds fb' maxlen [] := by
  rcases h.place with ⟨hno, -⟩ | ⟨pre, post, hp⟩
  · have hlen : ¬ 0 < fb.len := by
      rw [hno.len]
      exact Nat.lt_irrefl 0
    refine ⟨{ fb with used := 0, skip := 0 }, ?_,
      h.sized.with_len h.sized.capped h.sized.len_lt _ _ _, by decide,
      Or.inl ⟨⟨hno.data, hno.len, rfl, rfl⟩, rfl⟩⟩
    rw [fbufClear, if_neg hlen]
  · obtain ⟨rest, hrun, hlen⟩ := fbufClear_placed hp
    refine ⟨_, hrun, h.sized.with_len h.sized.capped h.sized.len_lt _ _ _, by decide,
      Or.inr ⟨[], rest, rfl, rfl, rfl, ?_⟩⟩
    show fb.len = _
    simp
    omega

theorem fbufCopy_spec {src : FBuf} {maxlen' : ℕ} (h : Holds fb maxlen s)
    (hsrc : Holds src maxlen' t) :
    ∃ fb', fbufCopy (fun _ => true) src fb = some (fb', (replaceWithin maxlen s t).2) ∧
      Holds fb' maxlen (replaceWithin maxlen s t).1 := by
  have hshort := hsrc.short
  rw [fbufCopy, hsrc.used, replaceWithin]
  by_cases hover : Exceeds maxlen t.length
  · rw [h.extend_exceeds (by omega) hover, if_pos hover]
    exact ⟨fb, rfl, h⟩
  · obtain ⟨fb₁, pre, c, post, hrun, hpos, hp, hs, hroom⟩ := h.extend (by omega) hover
    have hzero : ¬ fb₁.len = 0 := hpos.ne'
    have hl := hp.len
    rw [List.length_cons] at hl
    obtain ⟨rest, hclear, hrest⟩ := fbufClear_placed hp
    have hpeek : peek src.data src.skip t.length = some (t.map some) := by
      rcases hsrc.place with ⟨-, rfl⟩ | ⟨pre', post', hsp⟩
      · rfl
      · rw [hsp.data, hsp.skip]
        exact peek_mid (by rw [List.length_map])
    have hfits : (t.map some).length ≤ (some (0 : UInt8) :: rest).length := by
      rw [List.length_map, List.length_cons]
      omega
    have hpoke := poke_mid (a := []) hfits
    obtain ⟨c', xs, hxs⟩ :
        ∃ c' xs, (some (0 : UInt8) :: rest).drop (t.map some).length = c' :: xs := by
      refine List.exists_cons_of_length_pos ?_
      rw [List.length_drop, List.length_map, List.length_cons]
      omega
    have hcount := congrArg List.length hxs
    rw [List.length_drop, List.length_map, List.length_cons, List.length_cons] at hcount
    rw [hxs, List.nil_append, List.nil_append, List.length_nil] at hpoke
    have hp' : Placed { fb₁ with
        data := some (t.map some ++ c' :: xs), used := t.length, skip := 0 } t [] (c' :: xs) := by
      refine ⟨rfl, rfl, rfl, ?_⟩
      show fb₁.len = _
      rw [List.length_nil, List.length_cons]
      omega
    obtain ⟨fb₂, hterm, hp₂, hs₂, hused⟩ :=
      terminate_spec hp' (hs.with_len hs.capped hs.len_lt _ _ _)
    rw [hrun, if_neg hover]
    refine ⟨fb₂, ?_, hp₂.holds hs₂ hshort⟩
    simp only [Option.bind_eq_bind, Option.bind_some, if_neg hzero, hclear, hpeek, hpoke]
    rw [hterm]
    simp only [Option.bind_some, hused]

/-! ## Printing -/

/-- `vsnprintf` writes what fits behind the content. -/
theorem vsnprintf_spec (hp : Placed fb s pre (c :: post)) (h : Sized fb maxlen)
    (t : List UInt8) :
    ∃ rest, vsnprintf fb t = some { fb with
        data := some (pre ++ s.map some ++ ((t.take post.length).map some ++ some 0 :: rest)) } ∧
      (t.take post.length).length + rest.length = post.length ∧
      usub fb.len (uadd fb.skip fb.used) = post.length + 1 := by
  have hl := hp.len
  have hlt := h.len_lt
  rw [List.length_cons] at hl
  have hsize : usub fb.len (uadd fb.skip fb.used) = post.length + 1 := by
    rw [hp.offset h, List.length_append, List.length_map, usub_of_le (by omega) hlt]
    omega
  have hcount : (t.take post.length).length ≤ post.length := List.length_take_le _ _
  have hwritten : ((t.take post.length).map some ++ [some (0 : UInt8)]).length =
      (t.take post.length).length + 1 := by
    rw [List.length_append, List.length_map]
    rfl
  have hpoke := hp.poke_behind h ((t.take post.length).map some ++ [some 0]) (by
    rw [hwritten, List.length_cons]
    omega)
  refine ⟨(c :: post).drop ((t.take post.length).map some ++ [some (0 : UInt8)]).length,
    ?_, ?_, hsize⟩
  · rw [vsnprintf, hsize, if_neg (Nat.succ_ne_zero _), Nat.add_sub_cancel, hpoke]
    simp
  · rw [List.length_drop, hwritten, List.length_cons]
    omega

/-- Counting a string that was printed completely. -/
theorem countPrinted_spec (hp : Placed fb s pre (c :: post)) (h : Sized fb maxlen)
    (hroom : t.length ≤ post.length) (hshort : s.length + t.length < 2 ^ 31) :
    ∃ fb₁ fb₂, vsnprintf fb t = some fb₁ ∧ fb₁.len = fb.len ∧ fb₁.skip = fb.skip ∧
      fb₁.used = fb.used ∧ countPrinted fb₁ t.length = some (fb₂, (t.length : ℤ)) ∧
      Holds fb₂ maxlen (s ++ t) := by
  obtain ⟨rest, hrun, hcount, -⟩ := vsnprintf_spec hp h t
  rw [List.take_of_length_le hroom] at hrun hcount
  have hl := hp.len
  have hlt := h.len_lt
  rw [List.length_cons] at hl
  have hp' : Placed { fb with
      data := some (pre ++ s.map some ++ (t.map some ++ some 0 :: rest))
      used := uadd fb.used t.length } (s ++ t) pre (some 0 :: rest) := by
    refine ⟨by simp, hp.skip, ?_, ?_⟩
    · show uadd fb.used t.length = _
      rw [uadd_of_lt (by rw [hp.used]; omega), hp.used, List.length_append]
    · show fb.len = _
      rw [List.length_append, List.length_cons]
      omega
  obtain ⟨fb₂, hterm, hp₂, hs₂, -⟩ := terminate_spec hp' (h.with_len h.capped hlt _ _ _)
  refine ⟨_, fb₂, hrun, rfl, rfl, rfl, ?_, hp₂.holds hs₂ ?_⟩
  · rw [countPrinted, hterm]
    rfl
  · rw [List.length_append]
    exact hshort

theorem fbufPrintf_spec (h : Holds fb maxlen s) (t : List UInt8)
    (hshort : s.length + t.length < 2 ^ 31) :
    ∃ fb', fbufPrintf (fun _ => true) fb t = some (fb', (printWithin maxlen s t).2) ∧
      Holds fb' maxlen (printWithin maxlen s t).1 := by
  have hrange : UINT_RANGE = 2 ^ 32 := rfl
  have hest : FBUF_LINE_EST = 128 := rfl
  rw [fbufPrintf, printWithin, h.used, uadd_of_lt (by omega)]
  by_cases hover : Exceeds maxlen (s.length + FBUF_LINE_EST)
  · rw [h.extend_exceeds (by omega) hover, if_pos hover]
    exact ⟨fb, rfl, h⟩
  obtain ⟨fb₁, pre, c, post, hrun, hpos, hp, hs, hroom⟩ := h.extend (by omega) hover
  have hzero : ¬ fb₁.len = 0 := hpos.ne'
  have hl := hp.len
  rw [List.length_cons] at hl
  rw [hrun, if_neg hover]
  simp only [Option.bind_eq_bind, Option.bind_some, if_neg hzero]
  by_cases hfit : t.length ≤ post.length
  · -- The first attempt writes everything.
    obtain ⟨fb₂, fb₃, hprint, hlen, hskip, hused, hcount, h₃⟩ :=
      countPrinted_spec hp hs hfit hshort
    obtain ⟨-, -, -, hsize⟩ := vsnprintf_spec hp hs t
    have hall : ¬ usub fb₂.len (uadd fb₂.skip fb₂.used) ≤ t.length := by
      rw [hlen, hskip, hused, hsize]
      omega
    have hin : ¬ Exceeds maxlen (s.length + t.length) := by
      rintro ⟨hne, hlt⟩
      have hcap := hs.capped hne
      omega
    rw [hprint, appendWithin, if_neg hin]
    simp only [Option.bind_some, if_neg hall]
    exact ⟨fb₃, hcount, h₃⟩
  · obtain ⟨rest, hprint, hcount, hsize⟩ := vsnprintf_spec hp hs t
    have hmore : usub fb₁.len (uadd fb₁.skip fb₁.used) ≤ t.length := by
      rw [hsize]
      omega
    obtain ⟨c', post', hbehind⟩ : ∃ c' post',
        (t.take post.length).map some ++ some (0 : UInt8) :: rest = c' :: post' := by
      refine List.exists_cons_of_length_pos ?_
      rw [List.length_append, List.length_cons]
      omega
    have hlength := congrArg List.length hbehind
    rw [List.length_append, List.length_map, List.length_cons, List.length_cons] at hlength
    rw [hbehind] at hprint
    have hp₂ : Placed { fb₁ with data := some (pre ++ s.map some ++ c' :: post') } s pre
        (c' :: post') := by
      refine ⟨rfl, hp.skip, hp.used, ?_⟩
      show fb₁.len = _
      rw [List.length_cons]
      omega
    have hs₂ : Sized { fb₁ with data := some (pre ++ s.map some ++ c' :: post') } maxlen :=
      hs.with_len hs.capped hs.len_lt _ _ _
    have hsum : uadd fb₁.used t.length = s.length + t.length := by
      rw [hp.used, uadd_of_lt (by omega)]
    rw [hprint]
    simp only [Option.bind_some, if_pos hmore]
    rw [hsum, appendWithin]
    by_cases hover' : Exceeds maxlen (s.length + t.length)
    · have hskip : fb₁.skip ≤ fb₁.len := by
        rw [hp.skip, hl]
        omega
      obtain ⟨fb₃, hterm, hp₃, hs₃, -⟩ := terminate_spec hp₂ hs₂
      rw [fbufExtend_exceeds _ hs₂ hskip (by omega) hover', if_pos hover']
      simp only [Option.bind_some, if_true, hterm]
      exact ⟨fb₃, rfl, hp₃.holds hs₃ h.short⟩
    · obtain ⟨fb₃, pre₃, c₃, post₃, hrun₃, hpos₃, hp₃, hs₃, hroom₃⟩ :=
        fbufExtend_placed hs₂ hp₂ (by omega) hover'
      obtain ⟨fb₄, fb₅, hprint₄, -, -, -, hcount₅, h₅⟩ :=
        countPrinted_spec hp₃ hs₃ (by omega) hshort
      rw [hrun₃, if_neg hover']
      simp only [Option.bind_some, if_neg hpos₃.ne', hprint₄]
      exact ⟨fb₅, hcount₅, h₅⟩

/-! ## Removing -/

theorem fbufRemove_spec (h : Holds fb maxlen s) (hdata : fb.data.isSome) (n : ℕ) :
    ∃ fb', fbufRemove fb n = some (fb', ((s.drop n).length : ℤ)) ∧
      Holds fb' maxlen (s.drop n) := by
  obtain ⟨pre, post, hp⟩ := h.placed hdata
  have hs := h.sized
  have hl := hp.len
  have hlt := hs.len_lt
  rw [List.length_cons] at hl
  rw [fbufRemove, hp.used]
  by_cases hall : s.length ≤ n
  · obtain ⟨rest, hclear, hrest⟩ := fbufClear_placed hp
    rw [fbufClear, if_pos (by omega)] at hclear
    obtain ⟨data, hpoke, heq⟩ := Option.bind_eq_some_iff.mp hclear
    rw [Option.some.injEq] at heq
    rw [if_pos hall, List.drop_of_length_le hall, hpoke]
    simp only [Option.bind_eq_bind, Option.bind_some, heq]
    refine ⟨_, rfl, hs.with_len hs.capped hlt _ _ _, by decide, Or.inr ⟨[], rest, rfl, rfl, rfl, ?_⟩⟩
    show fb.len = _
    simp
    omega
  rw [if_neg hall]
  by_cases hzero : n = 0
  · subst hzero
    rw [if_neg (fun hne => hne rfl), List.drop_zero]
    exact ⟨fb, rfl, h⟩
  rw [if_pos hzero]
  dsimp only
  have hskip : uadd fb.skip n = (pre ++ (s.take n).map some).length := by
    rw [uadd_of_lt (by rw [hp.skip]; omega), hp.skip, List.length_append, List.length_map,
      List.length_take]
    omega
  have hused : usub s.length n = (s.drop n).length := by
    rw [usub_of_le (by omega) (by omega), List.length_drop]
  have hshort : (s.drop n).length < 2 ^ 31 := by
    have := h.short
    rw [List.length_drop]
    omega
  have hp' : Placed { fb with skip := uadd fb.skip n, used := usub s.length n } (s.drop n)
      (pre ++ (s.take n).map some) (some 0 :: post) := by
    refine ⟨?_, hskip, hused, ?_⟩
    · rw [List.append_assoc pre, ← List.map_append, List.take_append_drop]
      exact hp.data
    · show fb.len = _
      rw [List.length_append, List.length_map, List.length_take, List.length_drop,
        List.length_cons]
      omega
  by_cases hhalf : fb.len / 2 ≤ uadd fb.skip n
  · obtain ⟨post', hpeek, hpoke, hlength⟩ := moveDown_spec hp' hlt
    rw [if_pos hhalf]
    simp only [Option.bind_eq_bind, hpeek, Option.bind_some, hpoke]
    rw [hused]
    refine ⟨_, rfl, hs.with_len hs.capped hlt _ _ _, hshort,
      Or.inr ⟨[], post', rfl, rfl, rfl, ?_⟩⟩
    have hl' : fb.len = _ := hp'.len
    rw [List.length_cons] at hl' ⊢
    show fb.len = _
    rw [List.length_nil]
    omega
  · rw [if_neg hhalf, hused]
    rw [hused] at hp'
    exact ⟨_, rfl, hp'.holds (hs.with_len hs.capped hlt _ _ _) hshort⟩

theorem leadingSpaces_spec :
    ∀ (s : List UInt8) (pre : List (Option UInt8)),
      leadingSpaces (some (pre ++ s.map some ++ post)) s.length pre.length =
        some (s.takeWhile isspace).length := by
  intro s
  induction s with
  | nil =>
      intro pre
      rfl
  | cons x s ih =>
      intro pre
      have hread : readCell (some (pre ++ (x :: s).map some ++ post)) pre.length = some x := by
        rw [List.map_cons, List.append_assoc]
        exact readCell_mid
      have hshift : pre ++ (x :: s).map some ++ post = (pre ++ [some x]) ++ s.map some ++ post := by
        simp
      rw [List.length_cons, leadingSpaces, hread]
      simp only [Option.bind_eq_bind, Option.bind_some]
      by_cases hx : isspace x = true
      · have hrest := ih (pre ++ [some x])
        rw [List.length_append, List.length_singleton] at hrest
        rw [if_pos hx, hshift, hrest, List.takeWhile_cons_of_pos hx]
        rfl
      · rw [if_neg hx, List.takeWhile_cons_of_neg hx]
        rfl

theorem drop_length_takeWhile (p : UInt8 → Bool) (s : List UInt8) :
    s.drop (s.takeWhile p).length = s.dropWhile p := by
  have hsplit : s.drop (s.takeWhile p).length =
      (s.takeWhile p ++ s.dropWhile p).drop (s.takeWhile p).length := by
    rw [List.takeWhile_append_dropWhile]
  rw [hsplit, List.drop_left]

theorem fbufTrim_spec (h : Holds fb maxlen s) (hdata : fb.data.isSome) :
    ∃ fb', fbufTrim fb = some (fb', ((s.takeWhile isspace).length : ℤ)) ∧
      Holds fb' maxlen (s.dropWhile isspace) := by
  obtain ⟨pre, post, hp⟩ := h.placed hdata
  obtain ⟨fb', hrun, h'⟩ := fbufRemove_spec h hdata (s.takeWhile isspace).length
  rw [drop_length_takeWhile] at h'
  refine ⟨fb', ?_, h'⟩
  rw [fbufTrim, hp.data, hp.used, hp.skip, leadingSpaces_spec]
  simp only [Option.bind_eq_bind, Option.bind_some, hrun]

/-- Keeping the first bytes of the content. -/
theorem truncate_spec (h : Holds fb maxlen s) (hdata : fb.data.isSome)
    (hpre : t <+: s) :
    ∃ fb', terminate { fb with used := t.length } = some fb' ∧ fb'.used = t.length ∧
      Holds fb' maxlen t := by
  obtain ⟨pre, post, hp⟩ := h.placed hdata
  obtain ⟨u, rfl⟩ := hpre
  have hs := h.sized
  have hl := hp.len
  have hshort := h.short
  rw [List.length_append] at hl hshort
  obtain ⟨c, rest, hrest⟩ : ∃ c rest, u.map some ++ some (0 : UInt8) :: post = c :: rest :=
    List.exists_cons_of_length_pos (by rw [List.length_append, List.length_cons]; omega)
  have hcount := congrArg List.length hrest
  rw [List.length_append, List.length_map, List.length_cons, List.length_cons] at hcount
  have hp' : Placed { fb with used := t.length } t pre (c :: rest) := by
    refine ⟨?_, hp.skip, rfl, ?_⟩
    · show fb.data = _
      rw [hp.data, ← hrest, List.map_append]
      simp
    · show fb.len = _
      rw [hl, List.length_cons, List.length_cons]
      omega
  obtain ⟨fb', hterm, hp₂, hs₂, hused⟩ :=
    terminate_spec hp' (hs.with_len hs.capped hs.len_lt _ _ _)
  exact ⟨fb', hterm, hused, hp₂.holds hs₂ (by omega)⟩

theorem withoutTrailing_spec (pre post : List (Option UInt8)) :
    ∀ (s : List UInt8), withoutTrailing (some (pre ++ s.map some ++ post)) pre.length s.length =
      some (s.rdropWhile isspace).length := by
  intro s
  induction s using List.reverseRecOn generalizing post with
  | nil => rfl
  | append_singleton s x ih =>
      have hshift : pre ++ (s ++ [x]).map some ++ post = pre ++ s.map some ++ (some x :: post) := by
        simp
      have hread : readCell (some (pre ++ s.map some ++ (some x :: post)))
          (pre.length + s.length) = some x := by
        have hcell := readCell_mid (x := x) (a := pre ++ s.map some) (b := post)
        rw [List.length_append, List.length_map] at hcell
        exact hcell
      rw [List.length_append, List.length_singleton, withoutTrailing, hshift, hread]
      simp only [Option.bind_eq_bind, Option.bind_some]
      by_cases hx : isspace x = true
      · rw [if_pos hx, ih (some x :: post), List.rdropWhile_concat_pos _ _ _ hx]
      · rw [if_neg hx, List.rdropWhile_concat_neg _ _ _ hx, List.length_append,
          List.length_singleton]

theorem fbufRtrim_spec (h : Holds fb maxlen s) (hdata : fb.data.isSome) :
    ∃ fb', fbufRtrim fb =
        some (fb', ((s.length - (s.rdropWhile isspace).length : ℕ) : ℤ)) ∧
      Holds fb' maxlen (s.rdropWhile isspace) := by
  obtain ⟨pre, post, hp⟩ := h.placed hdata
  obtain ⟨fb', hterm, -, h'⟩ := truncate_spec h hdata (List.rdropWhile_prefix isspace s)
  refine ⟨fb', ?_, h'⟩
  have hscan := withoutTrailing_spec pre (some 0 :: post) s
  rw [fbufRtrim, hp.data, hp.used, hp.skip, hscan]
  simp only [Option.bind_eq_bind, Option.bind_some]
  rw [← hp.data, ← hp.skip, hterm]
  rfl

theorem fbufSetUsed_spec (h : Holds fb maxlen s) (n : ℕ) :
    ∃ fb', fbufSetUsed fb n = some (fb', ((s.take n).length : ℤ)) ∧
      Holds fb' maxlen (s.take n) := by
  rw [fbufSetUsed, h.used]
  by_cases hlt : n < s.length
  · have hdata : fb.data.isSome := by
      rcases h.place with ⟨-, rfl⟩ | ⟨pre, post, hp⟩
      · exact absurd hlt (Nat.not_lt_zero n)
      · rw [hp.data]
        rfl
    have hlen : (s.take n).length = n := List.length_take_of_le hlt.le
    obtain ⟨fb', hterm, hused, h'⟩ := truncate_spec h hdata (List.take_prefix n s)
    rw [hlen] at hterm hused
    refine ⟨fb', ?_, h'⟩
    rw [if_pos hlt, hterm, hlen]
    simp only [Option.bind_eq_bind, Option.bind_some, hused]
  · rw [if_neg hlt, List.take_of_length_le (Nat.not_lt.mp hlt)]
    exact ⟨fb, rfl, h⟩

/-! ## Shrinking -/

theorem compactSkipped_spec (h : Holds fb maxlen s) :
    ∃ fb', compactSkipped fb = some fb' ∧ Sized fb' maxlen ∧
      ((NoStorage fb' ∧ s = []) ∨ ∃ post, Placed fb' s [] (some 0 :: post)) := by
  have hs := h.sized
  rcases h.place with ⟨hno, hnil⟩ | ⟨pre, post, hp⟩
  · have hskip : ¬ fb.skip ≠ 0 := fun hne => hne hno.skip
    exact ⟨fb, if_neg hskip, hs, Or.inl ⟨hno, hnil⟩⟩
  by_cases hskip : fb.skip ≠ 0
  · obtain ⟨post', hcompact, hlength, hterm⟩ := compact_spec hp hs.len_lt
    obtain ⟨rest, rfl⟩ := hterm rfl
    refine ⟨_, (if_pos hskip).trans hcompact, hs.with_len hs.capped hs.len_lt _ _ _,
      Or.inr ⟨rest, rfl, rfl, hp.used, ?_⟩⟩
    have hl := hp.len
    rw [List.length_cons] at hl hlength ⊢
    show fb.len = _
    rw [List.length_nil]
    omega
  · have hpre : pre = [] := by
      refine List.eq_nil_of_length_eq_zero ?_
      rw [← hp.skip]
      exact not_not.mp hskip
    subst hpre
    exact ⟨fb, if_neg hskip, hs, Or.inr ⟨post, hp⟩⟩

theorem shrinkLen_zero (fb : FBuf) : shrinkLen fb UINT_RANGE 0 = some 0 := by
  have hrange : UINT_RANGE = (2 ^ 32 - 1) + 1 := rfl
  rw [hrange, shrinkLen, if_pos (Nat.zero_le _)]

theorem fbufShrink_spec (h : Holds fb maxlen s) :
    ∃ r, fbufShrink (fun _ => true) fb = some r ∧ Holds r.1 maxlen s := by
  have hrange : UINT_RANGE = 2 ^ 32 := rfl
  have hshort := h.short
  obtain ⟨fb₁, hcompact, hs, hplace⟩ := compactSkipped_spec h
  rw [fbufShrink, hcompact]
  simp only [Option.bind_eq_bind, Option.bind_some]
  rcases hplace with ⟨hno, rfl⟩ | ⟨post, hp⟩
  · rw [if_pos hno.used, shrinkLen_zero]
    refine ⟨shrinkTo (fun _ => true) fb₁ 0, rfl, ?_⟩
    rw [shrinkTo, if_pos hno.len.symm]
    exact ⟨hs, hshort, Or.inl ⟨hno, rfl⟩⟩
  have hl := hp.len
  rw [List.length_nil, List.length_cons] at hl
  by_cases hzero : fb₁.used = 0
  · obtain rfl := List.eq_nil_of_length_eq_zero (hp.used.symm.trans hzero)
    have hne : ¬ 0 = fb₁.len := by omega
    rw [if_pos hzero, shrinkLen_zero]
    refine ⟨shrinkTo (fun _ => true) fb₁ 0, rfl, ?_⟩
    rw [shrinkTo, if_neg hne, if_pos rfl]
    exact ⟨hs.with_len (fun _ => Nat.zero_le _) (Nat.two_pow_pos 32) _ _ _, hshort,
      Or.inl ⟨⟨rfl, rfl, hzero, hp.skip⟩, rfl⟩⟩
  · have hu := hp.used
    have hlt := hs.len_lt
    obtain ⟨newlen, hloop, hfit, hle⟩ := shrinkLen_spec hs (by omega) UINT_RANGE fb₁.len hlt hlt
      (by omega)
    rw [if_neg hzero, hloop]
    refine ⟨shrinkTo (fun _ => true) fb₁ newlen, rfl, ?_⟩
    rw [shrinkTo]
    by_cases hsame : newlen = fb₁.len
    · rw [if_pos hsame]
      exact hp.holds hs hshort
    · have hpos : ¬ newlen = 0 := by omega
      have hdata : resize fb₁.data newlen =
          some ([] ++ s.map some ++ some 0 :: post.take (newlen - (s.length + 1))) := by
        have hblock : newlen ≤ ([] ++ s.map some ++ some (0 : UInt8) :: post).length := by
          simp
          omega
        obtain ⟨k, rfl⟩ : ∃ k, newlen = s.length + (k + 1) := ⟨newlen - s.length - 1, by omega⟩
        have hk : s.length + (k + 1) - (s.length + 1) = k := by omega
        rw [hp.data, resize_of_ge hblock, hk, List.nil_append, List.take_append,
          List.length_map, List.take_of_length_le (by simp), Nat.add_sub_cancel_left,
          List.take_succ_cons]
      rw [if_neg hsame, if_neg hpos, if_pos rfl]
      refine ⟨hs.with_len (fun hne => hle.trans (hs.capped hne)) (by omega) _ _ _, hshort,
        Or.inr ⟨[], post.take (newlen - (s.length + 1)), hdata, hp.skip, hu, ?_⟩⟩
      show newlen = _
      rw [List.length_nil, List.length_cons, List.length_take]
      omega

end FBuf
end LibHL
