import LibHL.FBuf.AddingLine
import LibHL.FBuf.Operations

/-!
# Buffers without storage

A buffer has no storage when it is new, was shrunk while it was empty, was detached or destroyed
or was moved elsewhere.  `fbuf_remove`, `fbuf_trim` and `fbuf_rtrim` write a terminator all the
same, while `fbuf_copy` reads nothing from an empty source.
-/

namespace LibHL
namespace FBuf

open Storage Circular

variable {alloc : ℕ → Bool} {fb fb' src dst : FBuf} {cs bytes : List (Option UInt8)} {n r : ℕ}

/-! ## Runs without removals -/

/-- The calls on one buffer in such a run. -/
inductive PlainCall : Call → Prop where
  | add (str : List UInt8) : PlainCall (.add str)
  | clear : PlainCall .clear
  | shrink : PlainCall .shrink
  | detach : PlainCall .detach
  | destroy : PlainCall .destroy

/-- The buffers that these calls and moves lead to, whether allocations succeed or fail. -/
inductive PlainRun : FBuf → Prop where
  | create {maxlen : ℕ} (hmax : maxlen < UINT_RANGE) : PlainRun (fbufCreate maxlen)
  | call {fb fb' : FBuf} (h : PlainRun fb) (alloc : ℕ → Bool) (call : Call)
      (hplain : PlainCall call) (hrun : perform alloc fb call = some fb') : PlainRun fb'
  | source {src dst : FBuf} (hsrc : PlainRun src) (hdst : PlainRun dst) :
      PlainRun (fbufMove src dst).1
  | destination {src dst : FBuf} (hsrc : PlainRun src) (hdst : PlainRun dst) :
      PlainRun (fbufMove src dst).2

theorem PlainRun.reachable (h : PlainRun fb) : Reachable AnyMemory fb := by
  induction h with
  | create hmax => exact .create hmax
  | call h alloc call hplain hrun ih =>
      refine ih.call alloc call trivial ?_ hrun
      cases hplain with
      | add str => exact trivial
      | clear => exact trivial
      | shrink => exact trivial
      | detach => exact trivial
      | destroy => exact trivial
  | source hsrc hdst ihsrc ihdst => exact ihsrc.call (fun _ => true) .destroy trivial trivial rfl
  | destination hsrc hdst ihsrc ihdst => exact ihsrc

/-- Every byte of the content was written. -/
def Written (fb : FBuf) : Prop := ∃ s : List UInt8, contents fb = s.map some

theorem written_of_empty (h : fb.used = 0) : Written fb := ⟨[], contents_eq_nil h⟩

theorem contents_of_fbufAddBinary {x : ℤ} (h : Backed fb)
    (hrun : fbufAddBinary alloc fb bytes = some (fb', x)) :
    contents fb' = contents fb ∨ contents fb' = contents fb ++ bytes := by
  by_cases hne : bytes = []
  · rw [fbufAddBinary, if_pos (List.length_eq_zero_iff.mpr hne)] at hrun
    cases hrun
    exact Or.inl rfl
  cases hext : fbufExtend alloc fb (uadd fb.used bytes.length) with
  | none =>
      rw [fbufAddBinary, if_neg (fun hzero => hne (List.length_eq_zero_iff.mp hzero)), hext] at hrun
      cases hrun
  | some ext =>
      obtain ⟨fb₁, r⟩ := ext
      by_cases hr : r = 0
      · subst hr
        rw [fbufAddBinary_of_fails hne hext] at hrun
        cases hrun
        exact Or.inl (fbufExtend_cases h hext).sameContent.contents
      by_cases hin : fb₁.skip + fb.used + bytes.length < (cells fb₁).length
      · obtain ⟨cs, hadd, -, hcontents⟩ := fbufAddBinary_eq h hne hext hr hin
        rw [hadd] at hrun
        cases hrun
        exact Or.inr hcontents
      · rw [fbufAddBinary_eq_none h hne hext hr (Nat.not_lt.mp hin)] at hrun
        cases hrun

theorem written_of_plainCall {call : Call} (h : Backed fb) (hwritten : Written fb)
    (hplain : PlainCall call) (hrun : perform alloc fb call = some fb') : Written fb' := by
  cases hplain with
  | add str =>
      obtain ⟨r, hadd, rfl⟩ := Option.map_eq_some_iff.mp hrun
      rw [fbufAdd] at hadd
      by_cases hnil : cstring str = []
      · rw [if_pos hnil] at hadd
        cases hadd
        exact hwritten
      rw [if_neg hnil] at hadd
      obtain ⟨s, hs⟩ := hwritten
      rcases contents_of_fbufAddBinary h hadd with hsame | happended
      · exact ⟨s, hsame.trans hs⟩
      · exact ⟨s ++ cstring str, by rw [happended, hs, List.map_append]⟩
  | clear =>
      rw [perform, fbufClear] at hrun
      refine written_of_empty ?_
      by_cases hlen : 0 < fb.len
      · rw [if_pos hlen] at hrun
        obtain ⟨data, -, heq⟩ := Option.bind_eq_some_iff.mp hrun
        rw [← Option.some.inj heq]
      · rw [if_neg hlen] at hrun
        rw [← Option.some.inj hrun]
  | shrink =>
      obtain ⟨r, hshrink, rfl⟩ := Option.map_eq_some_iff.mp hrun
      by_cases hused : fb.used = 0
      · obtain ⟨data, hempty, -⟩ := fbufShrink_empty alloc h hused
        rw [hempty] at hshrink
        cases hshrink
        exact written_of_empty hused
      · obtain ⟨newlen, hto⟩ := shrinksTo_of_fbufShrink h hused hshrink
        obtain ⟨data, hstops, -, hsame, -⟩ := fbufShrink_stops alloc h hused hto
        rw [hstops] at hshrink
        cases hshrink
        obtain ⟨s, hs⟩ := hwritten
        exact ⟨s, hsame.contents.trans hs⟩
  | detach =>
      obtain ⟨r, hdetach, rfl⟩ := Option.map_eq_some_iff.mp hrun
      rw [fbufDetach] at hdetach
      by_cases hused : fb.used = 0
      · rw [if_pos hused] at hdetach
        cases hdetach
        exact hwritten
      · rw [if_neg hused] at hdetach
        obtain ⟨fb', -, heq⟩ := Option.bind_eq_some_iff.mp hdetach
        obtain rfl := Option.some.inj heq
        exact written_of_empty rfl
  | destroy =>
      cases hrun
      exact written_of_empty rfl

theorem PlainRun.written (h : PlainRun fb) : Written fb := by
  induction h with
  | create hmax => exact written_of_empty rfl
  | call h alloc call hplain hrun ih =>
      exact written_of_plainCall h.reachable.backed ih hplain hrun
  | source hsrc hdst ihsrc ihdst => exact written_of_empty rfl
  | destination hsrc hdst ihsrc ihdst => exact ihsrc

/-! ## Removing -/

theorem isSome_fbufRemove_iff (h : Backed fb) (n : ℕ) :
    (fbufRemove fb n).isSome = true ↔ fb.data.isSome = true := by
  rcases h.storage with ⟨hdata, hused, -⟩ | ⟨cs, hdata, -, hinside, hlt⟩
  · rw [fbufRemove, if_pos (by omega), hdata]
    exact Iff.rfl
  have hstart : poke (some cs) 0 [some (0 : UInt8)] = some (some (overwrite cs 0 [some 0])) :=
    poke_of_le (by rw [List.length_singleton]; omega)
  rw [hdata]
  refine iff_of_true ?_ rfl
  rw [fbufRemove, hdata]
  by_cases hall : fb.used ≤ n
  · rw [if_pos hall, hstart]
    rfl
  rw [if_neg hall]
  by_cases hn : n = 0
  · rw [if_neg (not_not.mpr hn)]
    rfl
  rw [if_pos hn]
  dsimp only
  have hskip : uadd fb.skip n = fb.skip + n := uadd_of_lt (by omega)
  have hrest : usub fb.used n = fb.used - n := usub_of_le (by omega) (by omega)
  rw [hskip, hrest]
  by_cases hhalf : fb.len / 2 ≤ fb.skip + n
  · have hcount : uadd (fb.used - n) 1 = fb.used - n + 1 := uadd_of_lt (by omega)
    have hlength : ((cs.drop (fb.skip + n)).take (fb.used - n + 1)).length = fb.used - n + 1 := by
      rw [List.length_take, List.length_drop]
      omega
    rw [if_pos hhalf, hcount, peek_of_le (by omega)]
    simp only [Option.bind_eq_bind, Option.bind_some]
    rw [poke_of_le (by omega)]
    rfl
  · rw [if_neg hhalf]
    rfl

/-- A written content, with what lies around it. -/
theorem Written.around (hwritten : Written fb) (h : Backed fb) (hdata : fb.data = some cs) :
    ∃ (s : List UInt8) (pre post : List (Option UInt8)), fb.data = some (pre ++ s.map some ++ post) ∧
      pre.length = fb.skip ∧ s.length = fb.used := by
  obtain ⟨s, hs⟩ := hwritten
  have hcells := cells_some hdata
  have hlen := h.length_contents
  have hinside := h.inside (by rw [hdata]; rfl)
  rw [hcells] at hinside
  rw [contents, hcells] at hs
  refine ⟨s, cs.take fb.skip, (cs.drop fb.skip).drop fb.used, ?_, ?_, ?_⟩
  · rw [hdata, ← hs, List.append_assoc, List.take_append_drop, List.take_append_drop]
  · rw [List.length_take]
    omega
  · rw [← List.length_map some, ← hs, List.length_take, List.length_drop]
    omega

theorem isSome_fbufTrim_iff (h : Backed fb) (hwritten : Written fb) :
    (fbufTrim fb).isSome = true ↔ fb.data.isSome = true := by
  obtain ⟨i, hi⟩ : ∃ i, leadingSpaces fb.data fb.used fb.skip = some i := by
    rcases h.storage with ⟨hdata, hused, -⟩ | ⟨cs, hdata, -⟩
    · rw [hused]
      exact ⟨0, rfl⟩
    · obtain ⟨s, pre, post, hcells, hpre, hs⟩ := hwritten.around h hdata
      rw [hcells, ← hpre, ← hs]
      exact ⟨_, leadingSpaces_spec s pre⟩
  rw [← isSome_fbufRemove_iff h i, fbufTrim, hi]
  simp only [Option.bind_eq_bind, Option.bind_some]
  cases fbufRemove fb i with
  | none => exact Iff.rfl
  | some r => exact Iff.rfl

theorem isSome_fbufRtrim_iff (h : Backed fb) (hwritten : Written fb) :
    (fbufRtrim fb).isSome = true ↔ fb.data.isSome = true := by
  rcases h.storage with ⟨hdata, hused, -⟩ | ⟨cs, hdata, hcs, hinside, hlt⟩
  · rw [fbufRtrim, hused, withoutTrailing, hdata]
    exact Iff.rfl
  obtain ⟨s, pre, post, hcells, hpre, hs⟩ := hwritten.around h hdata
  have hscan := withoutTrailing_spec pre post s
  rw [← hcells, hpre, hs] at hscan
  have hshort : (s.rdropWhile isspace).length ≤ s.length :=
    (List.rdropWhile_prefix isspace s).length_le
  have hend : fb.skip + (s.rdropWhile isspace).length < (cells fb).length := by
    rw [hcs]
    omega
  obtain ⟨cs', hterm, -⟩ := @terminate_eq { fb with used := (s.rdropWhile isspace).length }
    h.cells_lt hend
  rw [fbufRtrim, hscan]
  simp only [Option.bind_eq_bind, Option.bind_some, hterm]
  exact iff_of_true rfl (by rw [hdata]; rfl)

/-! ## Copying -/

/-- The destination was extended for the content of the source. -/
theorem isSome_fbufCopy_of_extend {ext : FBuf} (hsrc : Backed src)
    (hext : fbufExtend alloc dst src.used = some (ext, r)) (hr : r ≠ 0) (hbacked : Backed ext)
    (hlen : ext.len ≠ 0) :
    (fbufCopy alloc src dst).isSome = true ↔ src.used + 1 ≤ (cells ext).length := by
  obtain ⟨bytes, hpeek⟩ := Option.isSome_iff_exists.mp hsrc.isSome_peek
  have hcount := (peek_eq_some hpeek).1
  have hsum := hsrc.used_lt
  rw [fbufCopy, hext]
  simp only [Option.bind_eq_bind, Option.bind_some]
  rw [if_neg hr, fbufClear, if_pos (Nat.pos_of_ne_zero hlen)]
  rcases hbacked.storage with ⟨hdata, -, -⟩ | ⟨cs, hdata, hcells, hinside, hlt⟩
  · have hnone : (cells ext).length = 0 := by
      rw [cells, hdata]
      rfl
    rw [hdata]
    exact iff_of_false Bool.false_ne_true (by omega)
  have hfit : 0 + [some (0 : UInt8)].length ≤ cs.length := by
    rw [List.length_singleton]
    omega
  have hlength := length_overwrite hfit
  rw [hdata, poke_of_le hfit, hcells]
  simp only [Option.bind_eq_bind, Option.bind_some, hpeek]
  constructor
  · intro hsome
    obtain ⟨r', hrun⟩ := Option.isSome_iff_exists.mp hsome
    obtain ⟨data, hpoke, hrun⟩ := Option.bind_eq_some_iff.mp hrun
    obtain ⟨fb', hterm, -⟩ := Option.bind_eq_some_iff.mp hrun
    obtain ⟨-, -, -, hin⟩ := terminate_eq_some hterm
    have hdata' : (data.getD []).length = cs.length := (length_poke hpoke).trans hlength
    have hend : uadd 0 src.used < (data.getD []).length := hin
    rw [uadd_of_lt (by omega)] at hend
    omega
  · intro hin
    rw [poke_of_le (by omega)]
    have hlength' := length_overwrite (by omega : 0 + bytes.length ≤ (overwrite cs 0 [some 0]).length)
    have hend : uadd 0 src.used = src.used := by
      rw [uadd_of_lt (by omega), Nat.zero_add]
    simp only [Option.bind_some, terminate, hend]
    rw [poke_of_le (by rw [List.length_singleton]; omega)]
    rfl

/-- An empty source without storage is copied as well; all depends on the destination. -/
theorem isSome_fbufCopy_iff (hsrc : Backed src) (hdst : Backed dst) :
    ((fbufExtend alloc dst src.used).isSome = true → (fbufCopy alloc src dst).isSome = true) ↔
      dst.len < src.used + 1 ∨ src.used + 1 ≤ (cells dst).length := by
  have hround := hsrc.used_lt
  have hN : uadd src.used 1 = src.used + 1 := uadd_of_lt (by omega)
  cases hext : fbufExtend alloc dst src.used with
  | none =>
      have hnone := mt (isSome_fbufExtend_iff alloc hdst).mpr
        (by rw [hext]; exact Bool.false_ne_true : ¬ (fbufExtend alloc dst src.used).isSome = true)
      rw [hN] at hnone
      exact iff_of_true (fun hsome => absurd hsome Bool.false_ne_true)
        (Or.inl (Nat.not_le.mp fun hle => hnone (Or.inl hle)))
  | some ext =>
      obtain ⟨fb', r⟩ := ext
      have hcases := fbufExtend_cases hdst hext
      rw [hN] at hcases
      rw [forall_prop_of_true Option.isSome_some]
      by_cases hr : r = 0
      · have hfails : (fbufCopy alloc src dst).isSome = true := by
          rw [fbufCopy, hext]
          simp only [Option.bind_eq_bind, Option.bind_some]
          rw [if_pos hr]
          rfl
        refine iff_of_true hfails (Or.inl ?_)
        cases hcases with
        | room hroom => omega
        | refused hmore hover => exact hmore
        | compacted hmore hfit hlen hcontents hbehind htail => omega
        | failed hmore hfits hrequests halloc => exact hmore
        | reallocated hmore hfits hrequests halloc hused hlen hcontents hbehind htail =>
            exact hmore
      rw [isSome_fbufCopy_of_extend hsrc hext hr (hcases.backed hdst)
        (by rw [hcases.len_of_ne hr]; exact hr)]
      cases hcases with
      | room hroom => exact (or_iff_right (by omega)).symm
      | refused hmore hover => exact absurd rfl hr
      | compacted hmore hfit hlen hcontents hbehind htail =>
          rw [cells_some rfl, hlen]
          exact (or_iff_right (by omega)).symm
      | failed hmore hfits hrequests halloc => exact absurd rfl hr
      | reallocated hmore hfits hrequests halloc hused hlen hcontents hbehind htail =>
          have hsize := (hrequests.le hdst.ranges hfits).1
          rw [cells_some rfl, hlen]
          exact iff_of_true hsize (Or.inl hmore)

/-! ## Buffers of such runs -/

/-- Removing and trimming stay inside the storage. -/
structure RemovesInside (fb : FBuf) : Prop where
  remove : ∀ n, (fbufRemove fb n).isSome = true
  trim : (fbufTrim fb).isSome = true
  rtrim : (fbufRtrim fb).isSome = true

/-- Copying stays inside both storages, once the destination was extended. -/
def CopiesInside (alloc : ℕ → Bool) (src dst : FBuf) : Prop :=
  (fbufExtend alloc dst src.used).isSome = true → (fbufCopy alloc src dst).isSome = true

/-- A terminator is written exactly if there is storage, and a copy exactly where the destination
has the length it says. -/
theorem staysInside_iff (h : PlainRun fb) (hdst : Reachable AnyMemory dst) :
    (RemovesInside fb ↔ fb.data.isSome = true) ∧
      (CopiesInside alloc fb dst ↔
        dst.len < fb.used + 1 ∨ fb.used + 1 ≤ (cells dst).length) := by
  have hbacked := h.reachable.backed
  refine ⟨⟨fun hinside => ?_, fun hdata => ⟨fun n => ?_, ?_, ?_⟩⟩,
    isSome_fbufCopy_iff hbacked hdst.backed⟩
  · exact (isSome_fbufRemove_iff hbacked 0).mp (hinside.remove 0)
  · exact (isSome_fbufRemove_iff hbacked n).mpr hdata
  · exact (isSome_fbufTrim_iff hbacked h.written).mpr hdata
  · exact (isSome_fbufRtrim_iff hbacked h.written).mpr hdata

/-- A new buffer has no storage. -/
theorem remove_writes_null :
    fbufRemove (fbufCreate FBUF_MAXLEN_NONE) 0 = none ∧
      fbufTrim (fbufCreate FBUF_MAXLEN_NONE) = none ∧
      fbufRtrim (fbufCreate FBUF_MAXLEN_NONE) = none ∧
      ¬ RemovesInside (fbufCreate FBUF_MAXLEN_NONE) :=
  ⟨rfl, rfl, rfl, fun hinside => absurd (hinside.remove 0) (by decide)⟩

theorem staysInside_iff_create :
    (RemovesInside (fbufCreate FBUF_MAXLEN_NONE) ↔
        (fbufCreate FBUF_MAXLEN_NONE).data.isSome = true) ∧
      (CopiesInside (fun _ => true) (fbufCreate FBUF_MAXLEN_NONE) (fbufCreate 3) ↔
        (fbufCreate 3).len < (fbufCreate FBUF_MAXLEN_NONE).used + 1 ∨
          (fbufCreate FBUF_MAXLEN_NONE).used + 1 ≤ (cells (fbufCreate 3)).length) :=
  staysInside_iff (.create (by decide)) (.create (by decide))

end FBuf
end LibHL
