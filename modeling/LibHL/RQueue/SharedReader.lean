import LibHL.RQueue.SharedRing

/-!
# The reader of the ring queue

A round of `rqueue_read` either finds nothing, or takes the page at the head out of
the ring and returns its value, whatever the writer does meanwhile.
-/

namespace LibHL
namespace SharedRQueue

open RQueue Prog

variable {V : Type} {c : Setting} {rd : ℕ}

/-! ## What the reader knows -/

theorem takes_refl (s : SharedRQueue V) : Takes s s := rfl

theorem part_stable (φ : ReaderPart V → Prop) :
    Stable (readerSpec c) (fun s => φ (readerPart s)) := by
  intro s s' hrely _ hs
  rw [show readerPart s' = readerPart s from hrely.part]
  exact hs

/-- The reader does not have `read_sync`. -/
def Outside (s : SharedRQueue V) : Prop := (readerPart s).readSync = false

theorem outside_stable : Stable (readerSpec (V := V) c) Outside :=
  part_stable fun r => r.readSync = false

/-- The reader has `read_sync`, and took `rd` pages out so far. -/
structure Ready (c : Setting) (rd : ℕ) (r : ReaderPart V) : Prop where
  readSync : r.readSync = true
  swaps : r.swaps = rd
  headMoves : r.headMoves = rd
  readerMoves : r.readerMoves = rd
  returned : r.returned.length = rd
  prev : r.prev (c.slot rd) = some (c.slot (rd + c.size))

/-- There is a value that was not read yet. -/
def Unread (rd : ℕ) (s : SharedRQueue V) : Prop :=
  rd < max s.log.commits 1 ∧ rd < s.log.stored

theorem commits_stable : Stable (readerSpec (V := V) c) (fun s => rd < max s.log.commits 1) := by
  intro s s' hrely _ hs
  have hle : s.log.commits ≤ s'.log.commits := hrely.commits_le
  show rd < max s'.log.commits 1
  omega

theorem unread_stable : Stable (readerSpec (V := V) c) (Unread rd) := by
  intro s s' hrely hinv hs
  exact ⟨commits_stable s s' hrely hinv hs.1, lt_of_lt_of_le hs.2 hrely.stored_le⟩

/-- The reader took page `rd` out of the ring; `hd` and `dt` count how often the head and
the reader pointer were moved. -/
structure Taken (rd hd dt : ℕ) (r : ReaderPart V) : Prop where
  readSync : r.readSync = true
  swaps : r.swaps = rd + 1
  headMoves : r.headMoves = hd
  readerMoves : r.readerMoves = dt
  returned : r.returned.length = rd

/-- The page taken out has the value that was written for it. -/
def HasValue (c : Setting) (rd : ℕ) (s : SharedRQueue V) : Prop :=
  s.log.swaps = rd + 1 ∧ rd < s.log.advanced.length ∧
    valueAt s.pages (c.slot rd) = s.log.advanced[rd]?

theorem getElem?_of_initial {l l' : List V} (h : l <+: l') {i : ℕ} (hi : i < l.length) :
    l'[i]? = l[i]? := by
  obtain ⟨t, rfl⟩ := h
  exact List.getElem?_append_left hi

theorem hasValue_stable : Stable (readerSpec (V := V) c) (HasValue c rd) := by
  intro s s' hrely _ ⟨hswaps, hlt, hvalue⟩
  have hpart : s'.log.swaps = s.log.swaps := congrArg ReaderPart.swaps hrely.part
  refine ⟨hpart.trans hswaps, lt_of_lt_of_le hlt hrely.advanced.length_le, ?_⟩
  rw [hrely.value rd hswaps, hvalue, getElem?_of_initial hrely.advanced hlt]

theorem getElem?_stable {v : V} :
    Stable (readerSpec (V := V) c) (fun s => s.log.advanced[rd]? = some v) := by
  intro s s' hrely _ hs
  have hlt := (List.getElem?_eq_some_iff.mp hs).1
  show s'.log.advanced[rd]? = some v
  rw [getElem?_of_initial hrely.advanced hlt]
  exact hs

/-! ## Steps of the reader -/

namespace Inv

variable {s : SharedRQueue V}

/-- Changes of previous pointers do not matter while the reader is at work. -/
theorem put_prev (h : Inv c s) (hsync : s.readSync = true) {a : Addr} {p : RQueuePage V}
    (ha : s.pages a = some p) (prev : Option Addr) :
    Inv c { s with pages := s.pages.put a { p with prev := prev } } := by
  have hnext : nextAt (s.pages.put a { p with prev := prev }) = nextAt s.pages := by
    rw [nextAt_put ha, ← nextAt_eq ha, Function.update_eq_self]
  have hvalue : valueAt (s.pages.put a { p with prev := prev }) = valueAt s.pages := by
    rw [valueAt_put ha, ← valueAt_eq ha, Function.update_eq_self]
  exact { h with
    page := fun j => isSome_put (h.page j)
    link := by
      rw [hnext]
      exact h.link
    closing := by
      rw [hnext]
      exact h.closing
    value := by
      rw [hvalue]
      exact h.value
    readerIdle := fun hs => absurd (hsync.symm.trans hs) (by decide) }

/-- Changes of the reader page do not matter while it is outside of the ring. -/
theorem put_reader (h : Inv c s) (hsync : s.readSync = true) {p : RQueuePage V}
    (ha : s.pages (c.slot (s.log.swaps + c.size + 1)) = some p) (next : PageLink) :
    Inv c { s with
      pages := s.pages.put (c.slot (s.log.swaps + c.size + 1)) { p with next := next } } := by
  have hvalue : valueAt (s.pages.put (c.slot (s.log.swaps + c.size + 1))
      { p with next := next }) = valueAt s.pages := by
    rw [valueAt_put ha, ← valueAt_eq ha, Function.update_eq_self]
  have hsize := c.two_le_size
  have hne : ∀ j, s.log.swaps ≤ j → j ≤ s.log.swaps + c.size →
      c.slot j ≠ c.slot (s.log.swaps + c.size + 1) := by
    intro j hj hj'
    exact c.slot_ne (by omega) (by omega)
  exact { h with
    page := fun j => isSome_put (h.page j)
    link := by
      intro j hj hj'
      rw [nextAt_put ha, Function.update_of_ne (hne j hj (Nat.le_of_lt hj'))]
      exact h.link j hj hj'
    closing := by
      rw [nextAt_put ha, Function.update_of_ne
        (hne _ (Nat.le_add_right _ _) (Nat.le_refl (s.log.swaps + c.size)))]
      exact h.closing
    value := by
      rw [hvalue]
      exact h.value
    readerIdle := fun hs => absurd (hsync.symm.trans hs) (by decide) }

/-- Linking the reader page behind the last page of the ring takes the head out. -/
theorem swap (h : Inv c s) (hsync : s.readSync = true) (hunread : Unread s.log.swaps s)
    (hreader : nextAt s.pages (c.slot (s.log.swaps + c.size + 1)) =
      some (flagOn (linkTo (c.slot (s.log.swaps + 1))))) {p : RQueuePage V}
    (hp : s.pages (c.slot (s.log.swaps + c.size)) = some p) :
    Inv c { s with
      pages := s.pages.put (c.slot (s.log.swaps + c.size))
        { p with next := linkTo (c.slot (s.log.swaps + c.size + 1)) }
      log := { s.log with swaps := s.log.swaps + 1 } } := by
  have hsize := c.two_le_size
  have hstored := h.stored_le
  have hadvanced := h.advanced_le
  obtain ⟨hcommits, hlt⟩ := hunread
  have hvalue : valueAt (s.pages.put (c.slot (s.log.swaps + c.size))
      { p with next := linkTo (c.slot (s.log.swaps + c.size + 1)) }) = valueAt s.pages := by
    rw [valueAt_put hp, ← valueAt_eq hp, Function.update_eq_self]
  have hswaps : s.log.swaps + 1 + c.size = s.log.swaps + c.size + 1 := by omega
  exact { h with
    page := fun j => isSome_put (h.page j)
    link := by
      intro j hj hj'
      have hj₁ : s.log.swaps + 1 ≤ j := hj
      have hj₂ : j < s.log.swaps + 1 + c.size := hj'
      rw [nextAt_put hp]
      by_cases hlast : j = s.log.swaps + c.size
      · subst hlast
        rw [Function.update_self]
      · rw [Function.update_of_ne (c.slot_ne (by omega) (by omega))]
        exact h.link j (by omega) (by omega)
    closing := by
      show nextAt _ (c.slot (s.log.swaps + 1 + c.size)) = _
      rw [nextAt_put hp, hswaps, Function.update_of_ne (c.slot_ne (by omega) (by omega)).symm]
      exact hreader
    headMoves_le := Nat.le_succ_of_le h.headMoves_le
    swaps_le_stored := hlt
    advanced_le := by
      show s.log.advanced.length ≤ s.log.swaps + 1 + c.size
      omega
    swaps_le_commits := hcommits
    value := by
      intro j hj hj'
      rw [hvalue]
      exact h.value j (Nat.le_of_succ_le hj) hj'
    readerIdle := fun hs => absurd (hsync.symm.trans hs) (by decide)
    empty := by
      intro hexact hempty
      refine Or.inr ((h.empty hexact hempty).resolve_left ?_)
      omega }

end Inv

section Reader

variable {rd : ℕ}

/-- What the reader knows after a step that only reads. -/
theorem read_triple {β : Type} {φ : ReaderPart V → Prop} {P : SharedRQueue V → Prop}
    {f : SharedRQueue V → β} {ψ : β → Prop} (hP : Stable (readerSpec c) P)
    (h : ∀ s, Inv c s → φ (readerPart s) → P s → ψ (f s)) :
    Triple (readerSpec c) (fun s => φ (readerPart s) ∧ P s) (get f)
      (fun r s => ψ r ∧ φ (readerPart s) ∧ P s) :=
  get_triple takes_refl ((part_stable φ).and hP) fun s hinv hs => ⟨h s hinv hs.1 hs.2, hs⟩

theorem unlockRead_none_triple {P : SharedRQueue V → Prop} (hP : Stable (readerSpec c) P) :
    Triple (readerSpec c) (fun s => Ready c rd (readerPart s) ∧ P s) (unlockRead none)
      (fun _ s => (readerPart s).readSync = false) := by
  refine modify_triple ((part_stable _).and hP) fun s hinv hs _ => ?_
  obtain ⟨hready, -⟩ := hs
  have hreturned : s.log.returned ++ (none : Option V).toList = s.log.returned := by simp
  rw [hreturned]
  refine ⟨{ hinv with readerIdle := fun _ => ?_ }, rfl, rfl⟩
  have hswaps : s.log.swaps = rd := hready.swaps
  refine ⟨hready.headMoves.trans hswaps.symm, hready.readerMoves.trans hswaps.symm,
    hready.returned.trans hswaps.symm, ?_⟩
  show prevAt s.pages (c.slot s.log.swaps) = _
  rw [hswaps]
  exact hready.prev

/-- The end of a round that gives up. -/
theorem giveUp_triple {P : SharedRQueue V → Prop} (hP : Stable (readerSpec c) P) :
    Triple (readerSpec c) (fun s => Ready c rd (readerPart s) ∧ P s)
      (do unlockRead none; pure (none : Option V))
      (fun _ s => (readerPart s).readSync = false) :=
  (unlockRead_none_triple hP).bind fun _ => Triple.ret fun _ hs => hs

theorem markEmpty_triple {dt : ℕ} {P : SharedRQueue V → Prop} (hP : Stable (readerSpec c) P)
    (hkeep : ∀ s : SharedRQueue V, P s → P { s with isEmpty := true }) :
    Triple (readerSpec c) (fun s => Taken rd (rd + 1) dt (readerPart s) ∧ P s) markEmpty
      (fun _ s => Taken rd (rd + 1) dt (readerPart s) ∧ P s) := by
  have hstable := (part_stable (c := c) (V := V) (Taken rd (rd + 1) dt)).and hP
  refine (get_keeps takes_refl hstable).bind fun headSnap => ?_
  refine (get_keeps takes_refl hstable).bind fun tailSnap => ?_
  by_cases hsnap : headSnap = tailSnap
  · rw [if_pos hsnap]
    refine (get_keeps takes_refl hstable).bind fun head => ?_
    by_cases hhead : head = headSnap
    · rw [if_pos hhead]
      refine (get_keeps takes_refl hstable).bind fun tail => ?_
      by_cases htail : tail = tailSnap
      · rw [if_pos htail]
        refine modify_triple hstable fun s hinv hs hcond => ?_
        refine ⟨{ hinv with not_empty := nofun, empty := ?_ }, rfl, hs.1, hkeep s hs.2⟩
        intro hexact _
        cases hcond hexact rfl with
        | inl hempty => exact hinv.empty hexact hempty
        | inr heq =>
            rw [hinv.head, hinv.tail, show s.log.headMoves = s.log.swaps from
              hs.1.headMoves.trans hs.1.swaps.symm] at heq
            have hle := hinv.swaps_le_stored.trans hinv.stored_le
            have hlt := hinv.advanced_le
            exact Or.inl (c.slots.eq_of_near heq hle (by omega)).symm
      · rw [if_neg htail]
        exact Triple.ret fun s hs => hs
    · rw [if_neg hhead]
      exact Triple.ret fun s hs => hs
  · rw [if_neg hsnap]
    exact Triple.ret fun s hs => hs

/-! ## Linking the reader page -/

theorem validateReaderSnapshot_keeps {P : SharedRQueue V → Prop} (hP : Stable (readerSpec c) P)
    (head commit : Addr) (next : PageLink) :
    Triple (readerSpec c) P (validateReaderSnapshot head commit next) (fun _ => P) := by
  refine (get_keeps takes_refl hP).bind fun current => ?_
  by_cases hhead : current = head
  · rw [if_pos hhead]
    refine (get_keeps takes_refl hP).bind fun current => ?_
    by_cases hcommit : current = commit
    · rw [if_pos hcommit]
      exact (readPage_keeps takes_refl hP).bind fun _ => Triple.ret fun s hs => hs
    · rw [if_neg hcommit]
      exact Triple.ret fun s hs => hs
  · rw [if_neg hhead]
    exact Triple.ret fun s hs => hs

theorem commit_seen {s : SharedRQueue V} (hinv : Inv c s) (hready : Ready c rd (readerPart s))
    (hne : c.slot (rd + c.size + 1) ≠ s.commit) : rd < max s.log.commits 1 := by
  have hle : rd ≤ max s.log.commits 1 := by
    have hswaps : s.log.swaps = rd := hready.swaps
    rw [← hswaps]
    exact hinv.swaps_le_commits
  refine lt_of_le_of_ne hle fun heq => hne ?_
  obtain ⟨k, hk⟩ : ∃ k, rd = k + 1 := ⟨rd - 1, by omega⟩
  rw [hinv.commit, hk, c.slot_reader]
  by_cases hzero : s.log.commits = 0
  · rw [hzero, show k = 0 by omega]
  · rw [show s.log.commits - 1 = k by omega]

/-- The reader page is linked to the page after the head. -/
def Prepared (c : Setting) (rd : ℕ) (r : ReaderPart V) : Prop :=
  Ready c rd r ∧ r.next (c.slot (rd + c.size + 1)) = some (flagOn (linkTo (c.slot (rd + 1))))

theorem linkReader_triple {oldNext : PageLink} :
    Triple (readerSpec c) (fun s => Ready c rd (readerPart (V := V) s) ∧ Unread rd s)
      (casNextOf (c.slot (rd + c.size + 1)) oldNext (flagOn (linkTo (c.slot (rd + 1)))) id)
      (fun ok s => if ok then Prepared c rd (readerPart s) ∧ Unread rd s
        else Ready c rd (readerPart s) ∧ Unread rd s) := by
  refine casNextOf_triple takes_refl ((part_stable _).and unread_stable)
    (fun s p _ hs _ _ => hs) fun s p hinv hs hp _ => ?_
  obtain ⟨hready, hunread⟩ := hs
  have hswaps : s.log.swaps = rd := hready.swaps
  subst hswaps
  have hprev : prevAt (s.pages.put (c.slot (s.log.swaps + c.size + 1))
      { p with next := flagOn (linkTo (c.slot (s.log.swaps + 1))) }) = prevAt s.pages := by
    rw [prevAt_put hp, ← prevAt_eq hp, Function.update_eq_self]
  refine ⟨hinv.put_reader hready.readSync hp _, rfl, ⟨⟨hready.readSync, rfl, hready.headMoves,
    hready.readerMoves, hready.returned, ?_⟩, ?_⟩, hunread⟩
  · show prevAt (s.pages.put _ _) _ = _
    rw [hprev]
    exact hready.prev
  · show nextAt (s.pages.put _ _) _ = _
    rw [nextAt_put hp, Function.update_self]

theorem writeReaderPrev_triple {prev : Option Addr} :
    Triple (readerSpec c) (fun s => Prepared c rd (readerPart (V := V) s) ∧ Unread rd s)
      (writePage (c.slot (rd + c.size + 1)) fun p => { p with prev := prev })
      (fun _ s => Prepared c rd (readerPart s) ∧ Unread rd s) := by
  refine writePage_triple ((part_stable _).and unread_stable) fun s p hinv hs hp => ?_
  obtain ⟨⟨hready, hnext⟩, hunread⟩ := hs
  have hsize := c.two_le_size
  refine ⟨hinv.put_prev hready.readSync hp _, rfl, ⟨⟨hready.readSync, hready.swaps,
    hready.headMoves, hready.readerMoves, hready.returned, ?_⟩, ?_⟩, hunread⟩
  · show prevAt (s.pages.put _ _) _ = _
    rw [prevAt_put hp, Function.update_of_ne (c.slot_ne (by omega) (by omega))]
    exact hready.prev
  · show nextAt (s.pages.put _ _) _ = _
    rw [nextAt_put hp, ← nextAt_eq hp, Function.update_eq_self]
    exact hnext

theorem swapNext_triple :
    Triple (readerSpec c) (fun s => Prepared c rd (readerPart (V := V) s) ∧ Unread rd s)
      (casNextOf (c.slot (rd + c.size)) (flagOn (linkTo (c.slot rd)))
        (linkTo (c.slot (rd + c.size + 1))) fun log => { log with swaps := log.swaps + 1 })
      (fun ok s => ok = true ∧ (Taken rd rd rd (readerPart s) ∧ HasValue c rd s)) := by
  refine casNextOf_triple takes_refl ((part_stable _).and unread_stable)
    (fun s p hinv hs hp hne => ?_) fun s p hinv hs hp _ => ?_
  · obtain ⟨⟨hready, -⟩, -⟩ := hs
    have hswaps : s.log.swaps = rd := hready.swaps
    subst hswaps
    have hclosing := hinv.closing
    rw [nextAt_eq hp, Option.some.injEq] at hclosing
    exact absurd hclosing hne
  · obtain ⟨⟨hready, hnext⟩, hunread⟩ := hs
    have hswaps : s.log.swaps = rd := hready.swaps
    subst hswaps
    have hlt := hunread.2.trans_le hinv.stored_le
    refine ⟨hinv.swap hready.readSync hunread hnext hp, rfl, rfl, ⟨hready.readSync, rfl,
      hready.headMoves, hready.readerMoves, hready.returned⟩, rfl, hlt, ?_⟩
    show valueAt (s.pages.put _ _) _ = _
    rw [valueAt_put hp, ← valueAt_eq hp, Function.update_eq_self]
    exact hinv.value _ (Nat.le_refl _) hunread.2

/-! ## Taking the head out -/

/-- The reader has moved the head on, and the new head has its previous pointer. -/
def Linked (c : Setting) (rd dt : ℕ) (r : ReaderPart V) : Prop :=
  Taken rd (rd + 1) dt r ∧ r.prev (c.slot (rd + 1)) = some (c.slot (rd + 1 + c.size))

theorem casHead_triple :
    Triple (readerSpec c) (fun s => Taken rd rd rd (readerPart s) ∧ HasValue c rd s)
      (casHead (V := V) (c.slot rd) (c.slot (rd + 1)))
      (fun _ s => Taken rd (rd + 1) rd (readerPart s) ∧ HasValue c rd s) := by
  refine modify_triple ((part_stable _).and hasValue_stable) fun s hinv hs _ => ?_
  obtain ⟨htaken, hvalue⟩ := hs
  have hmoves : s.log.headMoves = rd := htaken.headMoves
  have hswaps : s.log.swaps = rd + 1 := htaken.swaps
  have hhead : s.head = c.slot rd := by rw [hinv.head, hmoves]
  rw [if_pos hhead]
  refine ⟨{ hinv with
    head := ?_
    headMoves_le := ?_
    readerIdle := fun hs => absurd (htaken.readSync.symm.trans hs) (by decide) }, rfl,
    ⟨htaken.readSync, hswaps, ?_, htaken.readerMoves, htaken.returned⟩, hvalue⟩
  · show c.slot (rd + 1) = c.slot (s.log.headMoves + 1)
    rw [hmoves]
  · show s.log.headMoves + 1 ≤ s.log.swaps
    omega
  · show s.log.headMoves + 1 = rd + 1
    omega

theorem writePrev_triple :
    Triple (readerSpec c)
      (fun s => Taken rd (rd + 1) rd (readerPart (V := V) s) ∧ HasValue c rd s)
      (writePage (c.slot (rd + 1)) fun p => { p with prev := some (c.slot (rd + c.size + 1)) })
      (fun _ s => Linked c rd rd (readerPart s) ∧ HasValue c rd s) := by
  refine writePage_triple ((part_stable _).and hasValue_stable) fun s p hinv hs hp => ?_
  obtain ⟨htaken, hvalue⟩ := hs
  refine ⟨hinv.put_prev htaken.readSync hp _, rfl, ⟨⟨htaken.readSync, htaken.swaps,
    htaken.headMoves, htaken.readerMoves, htaken.returned⟩, ?_⟩, hvalue.1, hvalue.2.1, ?_⟩
  · show prevAt (s.pages.put _ _) (c.slot (rd + 1)) = _
    rw [prevAt_put hp, Function.update_self, show rd + 1 + c.size = rd + c.size + 1 by omega]
  · show valueAt (s.pages.put _ _) (c.slot rd) = _
    rw [valueAt_put hp, ← valueAt_eq hp, Function.update_eq_self]
    exact hvalue.2.2

theorem storeReader_triple :
    Triple (readerSpec c) (fun s => Linked c rd rd (readerPart s) ∧ HasValue c rd s)
      (storeReader (V := V) (c.slot rd))
      (fun _ s => Linked c rd (rd + 1) (readerPart s) ∧ HasValue c rd s) := by
  refine modify_triple ((part_stable _).and hasValue_stable) fun s hinv hs _ => ?_
  obtain ⟨⟨htaken, hprev⟩, hvalue⟩ := hs
  have hmoves : s.log.readerMoves = rd := htaken.readerMoves
  refine ⟨{ hinv with
    reader := ?_
    readerIdle := fun hs => absurd (htaken.readSync.symm.trans hs) (by decide) }, rfl,
    ⟨⟨htaken.readSync, htaken.swaps, htaken.headMoves, ?_, htaken.returned⟩, hprev⟩, hvalue⟩
  · show c.slot rd = c.slot (s.log.readerMoves + 1 + c.size + 1)
    rw [hmoves, c.slot_reader]
  · show s.log.readerMoves + 1 = rd + 1
    omega

theorem reader_of_part {s : SharedRQueue V} {dt : ℕ} (hinv : Inv c s)
    (h : (readerPart s).readerMoves = dt) : s.reader = c.slot (dt + c.size + 1) := by
  rw [hinv.reader, show s.log.readerMoves = dt from h]

/-- The value on the page that was taken out is the next one to return. -/
theorem readValue_triple :
    Triple (readerSpec c) (fun s => Linked c rd (rd + 1) (readerPart s) ∧ HasValue c rd s)
      (readPage (c.slot rd) RQueuePage.value)
      (fun (v : Option V) s => v.isSome ∧
        (Linked c rd (rd + 1) (readerPart s) ∧ s.log.advanced[rd]? = v)) := by
  refine readPage_triple takes_refl ((part_stable _).and hasValue_stable)
    fun s p hinv hs hp => ?_
  obtain ⟨hlinked, -, hlt, hvalue⟩ := hs
  rw [valueAt_eq hp] at hvalue
  refine ⟨?_, hlinked, hvalue.symm⟩
  rw [hvalue]
  simpa using hlt

/-- A read that ends with a value returns the next one in the order of the writes. -/
theorem unlockRead_some_triple {v : V} :
    Triple (readerSpec c)
      (fun s => Taken rd (rd + 1) (rd + 1) (readerPart s) ∧
        (readerPart s).prev (c.slot (rd + 1)) = some (c.slot (rd + 1 + c.size)) ∧
        s.log.advanced[rd]? = some v)
      (unlockRead (some v)) (fun _ s => (readerPart s).readSync = false) := by
  refine modify_triple ((part_stable _).and ((part_stable (fun r =>
    r.prev (c.slot (rd + 1)) = some (c.slot (rd + 1 + c.size)))).and getElem?_stable))
    fun s hinv hs _ => ?_
  obtain ⟨htaken, hprev, hget⟩ := hs
  have hswaps : s.log.swaps = rd + 1 := htaken.swaps
  have hlength : s.log.returned.length = rd := htaken.returned
  refine ⟨{ hinv with returned := ?_, readerIdle := fun _ => ⟨?_, ?_, ?_, ?_⟩ }, rfl, rfl⟩
  · show s.log.returned ++ [v] <+: s.log.advanced
    rw [List.prefix_iff_eq_take, List.length_append, hlength, List.length_singleton,
      List.take_add_one, hget, ← hlength, ← List.prefix_iff_eq_take.mp hinv.returned]
    rfl
  · exact htaken.headMoves.trans hswaps.symm
  · exact htaken.readerMoves.trans hswaps.symm
  · show (s.log.returned ++ [v]).length = s.log.swaps
    rw [List.length_append, hlength, hswaps]
    rfl
  · show prevAt s.pages (c.slot s.log.swaps) = _
    rw [hswaps]
    exact hprev

section Values

variable [DecidableEq V]

theorem clearValue_triple {v : V} :
    Triple (readerSpec c)
      (fun s => Linked c rd (rd + 1) (readerPart s) ∧ s.log.advanced[rd]? = some v)
      (casValue (c.slot rd) (some v) none id)
      (fun _ s => Linked c rd (rd + 1) (readerPart s) ∧ s.log.advanced[rd]? = some v) := by
  refine casValue_triple takes_refl ((part_stable _).and getElem?_stable)
    (fun s _ hs => hs) fun s p hinv hs hp _ => ?_
  obtain ⟨⟨htaken, hprev⟩, hget⟩ := hs
  have hswaps : s.log.swaps = rd + 1 := htaken.swaps
  have hnext : nextAt (s.pages.put (c.slot rd) { p with value := none }) = nextAt s.pages := by
    rw [nextAt_put hp, ← nextAt_eq hp, Function.update_eq_self]
  have hprev' : prevAt (s.pages.put (c.slot rd) { p with value := none }) = prevAt s.pages := by
    rw [prevAt_put hp, ← prevAt_eq hp, Function.update_eq_self]
  have hpart : readerPart { s with
      pages := s.pages.put (c.slot rd) { p with value := none }, log := id s.log } =
      readerPart s := by
    simp only [readerPart, hnext, hprev', id_eq]
  refine ⟨{ hinv with
    page := fun j => isSome_put (hinv.page j)
    link := ?_
    closing := ?_
    value := ?_
    readerIdle := fun hs => absurd (htaken.readSync.symm.trans hs) (by decide) }, rfl, ?_, hget⟩
  · rw [hnext]
    exact hinv.link
  · rw [hnext]
    exact hinv.closing
  · intro j hj hj'
    have hj₁ : s.log.swaps ≤ j := hj
    have hj₂ : j < s.log.stored := hj'
    have hstored := hinv.stored_le
    have hadvanced := hinv.advanced_le
    rw [valueAt_put hp, Function.update_of_ne (c.slot_ne (by omega) (by omega)).symm]
    exact hinv.value j hj hj'
  · rw [hpart]
    exact ⟨htaken, hprev⟩

theorem takeHead_triple :
    Triple (readerSpec c) (fun s => Taken rd rd rd (readerPart (V := V) s) ∧ HasValue c rd s)
      (takeHead (c.slot rd) (linkTo (c.slot (rd + 1))))
      (fun _ s => (readerPart s).readSync = false) := by
  unfold takeHead
  rw [show asPage (linkTo (c.slot (rd + 1))) = some (c.slot (rd + 1)) from rfl]
  refine casHead_triple.bind fun _ => ?_
  refine (read_triple (ψ := fun a => a = c.slot (rd + c.size + 1)) hasValue_stable
    fun s hinv htaken _ => reader_of_part hinv htaken.readerMoves).bind fun reader => ?_
  refine Triple.of_fact fun hreader => ?_
  subst hreader
  refine writePrev_triple.bind fun _ => ?_
  refine storeReader_triple.bind fun _ => ?_
  have hreader : ∀ s : SharedRQueue V, Inv c s → Linked c rd (rd + 1) (readerPart s) →
      s.reader = c.slot rd := by
    intro s hinv hlinked
    rw [reader_of_part hinv hlinked.1.readerMoves, c.slot_reader]
  refine (read_triple (ψ := fun a => a = c.slot rd) hasValue_stable
    fun s hinv hlinked _ => hreader s hinv hlinked).bind fun reader => ?_
  refine Triple.of_fact fun heq => ?_
  subst heq
  refine readValue_triple.bind fun v => Triple.of_fact fun hsome => ?_
  cases v with
  | none => cases hsome
  | some v =>
      refine (read_triple (ψ := fun a => a = c.slot rd) getElem?_stable
        fun s hinv hlinked _ => hreader s hinv hlinked).bind fun reader => ?_
      refine Triple.of_fact fun heq => ?_
      subst heq
      refine clearValue_triple.bind fun _ => ?_
      have hadvanced : Stable (readerSpec (V := V) c) (fun s => s.log.advanced[rd]? = some v) :=
        getElem?_stable
      have hstable := (part_stable (c := c) (V := V) (Linked c rd (rd + 1))).and hadvanced
      refine Triple.bind (modify_triple (Q := fun _ s => Linked c rd (rd + 1) (readerPart s) ∧
        s.log.advanced[rd]? = some v) hstable fun s hinv hs _ => ⟨{ hinv with }, rfl, hs⟩)
        fun _ => ?_
      refine Triple.bind ((markEmpty_triple ((part_stable (fun r =>
        r.prev (c.slot (rd + 1)) = some (c.slot (rd + 1 + c.size)))).and
        hadvanced) fun s hs => hs).weaken
        (fun s hs => ⟨hs.1.1, hs.1.2, hs.2⟩) fun _ s hs => hs) fun _ => ?_
      exact unlockRead_some_triple.bind fun _ => Triple.ret fun s hs => hs

/-! ## A round -/

theorem swapHead_triple {oldNext : PageLink} :
    Triple (readerSpec c) (fun s => Ready c rd (readerPart (V := V) s) ∧ Unread rd s)
      (swapHead (c.slot rd) (linkTo (c.slot (rd + 1))) oldNext)
      (fun _ s => (readerPart s).readSync = false) := by
  refine (read_triple (ψ := fun a => a = c.slot (rd + c.size + 1)) unread_stable
    fun s hinv hready _ => reader_of_part hinv hready.readerMoves).bind fun reader => ?_
  refine Triple.of_fact fun heq => ?_
  subst heq
  refine linkReader_triple.bind fun ok => ?_
  cases ok with
  | false => exact giveUp_triple unread_stable
  | true =>
      have hunread : Stable (readerSpec (V := V) c) (Unread rd) := unread_stable
      have hstable := (part_stable (c := c) (V := V) (Prepared c rd)).and hunread
      refine (read_triple (ψ := fun a => a = c.slot (rd + c.size + 1)) unread_stable
        fun s hinv hprepared _ => reader_of_part hinv hprepared.1.readerMoves).bind
        fun reader => ?_
      refine Triple.of_fact fun heq => ?_
      subst heq
      refine (readPage_keeps takes_refl hstable).bind fun prev => ?_
      refine writeReaderPrev_triple.bind fun _ => ?_
      refine (read_triple (ψ := fun a => a = c.slot rd) unread_stable
        fun s hinv hprepared _ => ?_).bind fun head => Triple.of_fact fun heq => ?_
      · rw [hinv.head, show s.log.headMoves = rd from hprepared.1.headMoves]
      rw [if_pos heq]
      refine Triple.bind (readPage_triple (Q := fun prev s => prev = some (c.slot (rd + c.size)) ∧
        (Prepared c rd (readerPart s) ∧ Unread rd s)) takes_refl hstable
        fun s p hinv hs hp => ⟨?_, hs⟩) fun prev => Triple.of_fact fun hprev => ?_
      · have hprev := hs.1.1.prev
        rwa [show (readerPart s).prev (c.slot rd) = p.prev from prevAt_eq hp] at hprev
      subst hprev
      refine (read_triple (ψ := fun a => a = c.slot (rd + c.size + 1)) unread_stable
        fun s hinv hprepared _ => reader_of_part hinv hprepared.1.readerMoves).bind
        fun reader => ?_
      refine Triple.of_fact fun heq => ?_
      subst heq
      refine swapNext_triple.bind fun ok => Triple.of_fact fun hok => ?_
      rw [if_pos hok]
      exact takeHead_triple

theorem readRound_triple :
    Triple (readerSpec c) (fun s => Ready c rd (readerPart (V := V) s) ∧ True) readRound
      (fun _ s => (readerPart s).readSync = false) := by
  have htrue : Stable (readerSpec (V := V) c) (fun _ => True) := fun _ _ _ _ h => h
  refine (read_triple (ψ := fun a => a = c.slot rd) htrue fun s hinv hready _ => ?_).bind
    fun head => Triple.of_fact fun heq => ?_
  · rw [hinv.head, show s.log.headMoves = rd from hready.headMoves]
  subst heq
  -- What the commit pointer tells about the reader page stays true.
  refine Triple.bind (get_triple (Q := fun commit s => Ready c rd (readerPart s) ∧
    (c.slot (rd + c.size + 1) ≠ commit → rd < max s.log.commits 1)) takes_refl
    ((part_stable _).and htrue) fun s hinv hs => ⟨hs.1, commit_seen hinv hs.1⟩) fun commit => ?_
  have hseen : Stable (readerSpec (V := V) c)
      (fun s => c.slot (rd + c.size + 1) ≠ commit → rd < max s.log.commits 1) :=
    fun s s' hrely hinv hs hne => commits_stable s s' hrely hinv (hs hne)
  have hstable := (part_stable (V := V) (Ready c rd)).and hseen
  refine Triple.bind (readPage_triple (Q := fun next s => next = linkTo (c.slot (rd + 1)) ∧
    (Ready c rd (readerPart s) ∧
      (c.slot (rd + c.size + 1) ≠ commit → rd < max s.log.commits 1))) takes_refl hstable
    fun s p hinv hs hp => ⟨?_, hs⟩) fun next => Triple.of_fact fun heq => ?_
  · have hswaps : s.log.swaps = rd := hs.1.swaps
    have hsize := c.two_le_size
    have hlink := hinv.link rd (Nat.le_of_eq hswaps) (by omega)
    rw [nextAt_eq hp, Option.some.injEq] at hlink
    exact hlink
  subst heq
  refine (get_keeps takes_refl hstable).bind fun reader => ?_
  refine (readPage_keeps takes_refl hstable).bind fun oldNext => ?_
  refine (read_triple (ψ := fun a => a = c.slot (rd + c.size + 1)) hseen
    fun s hinv hready _ => reader_of_part hinv hready.readerMoves).bind
    fun reader => Triple.of_fact fun heq => ?_
  subst heq
  by_cases hcommit : c.slot (rd + c.size + 1) = commit
  · rw [if_pos hcommit]
    exact giveUp_triple hseen
  · rw [if_neg hcommit]
    refine Triple.bind (get_triple (Q := fun empty s => if empty then
      Ready c rd (readerPart s) ∧ True else Ready c rd (readerPart s) ∧ Unread rd s) takes_refl
      hstable fun s hinv hs => ?_) fun empty => ?_
    · cases hempty : s.isEmpty with
      | true => exact ⟨hs.1, trivial⟩
      | false =>
          have hstored := hinv.not_empty hempty
          have hcommits := hinv.commits_le
          have hlt := hs.2 hcommit
          exact ⟨hs.1, hlt, by omega⟩
    cases empty with
    | true => exact giveUp_triple htrue
    | false =>
        refine (validateReaderSnapshot_keeps ((part_stable _).and unread_stable) _ _ _).bind
          fun valid => ?_
        cases valid with
        | true => exact swapHead_triple
        | false => exact giveUp_triple unread_stable

/-! ## The loop -/

theorem sharedReadLoop_triple (n : ℕ) :
    Triple (readerSpec (V := V) c) Outside (sharedReadLoop n) (fun _ => Outside) := by
  induction n with
  | zero => exact Triple.ret fun s hs => hs
  | succ n ih =>
      refine Triple.bind (lockRead_triple (Q := fun ok s => if ok then
        Ready c (readerPart s).swaps (readerPart s) ∧ True else Outside s) takes_refl
        outside_stable (fun s _ hs _ => hs) fun s hinv hs hsync _ => ?_) fun ok => ?_
      · obtain ⟨hhead, hreader, hreturned, hprev⟩ := hinv.readerIdle hsync
        exact ⟨{ hinv with readerIdle := nofun }, rfl,
          ⟨rfl, rfl, hhead, hreader, hreturned, hprev⟩, trivial⟩
      cases ok with
      | false => exact ih
      | true =>
          intro s hs
          refine Triple.bind readRound_triple (fun v => ?_) s hs
          cases v with
          | none => exact ih
          | some v => exact Triple.ret fun s hs => hs

theorem readAll_triple (n : ℕ) :
    Triple (readerSpec (V := V) c) Outside (readAll n) (fun _ => Outside) := by
  induction n with
  | zero => exact Triple.ret fun s hs => hs
  | succ n ih => exact (sharedReadLoop_triple readerMaxRetries).bind fun _ => ih

end Values

end Reader

end SharedRQueue
end LibHL
