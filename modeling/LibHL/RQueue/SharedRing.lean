import LibHL.RQueue.Invariant
import LibHL.RQueue.SharedModel
import Mathlib.Data.List.Infix

/-!
# The ring of the queue while a reader and a writer are at work

The pages of the ring and the reader page are numbered round and round.  Each page
that the reader takes out comes back as the last one of the ring with the next read,
so that the ring is always a window of these numbers: it starts at the number of
pages taken out, and the tail is as many pages further as there are values that were
not read.  The module states what every state keeps, and what each of the two threads
leaves alone for the other one.
-/

namespace LibHL
namespace SharedRQueue

open RQueue Prog

variable {V : Type}

/-- The next pointer of a page. -/
def nextAt (pages : Heap (RQueuePage V)) (a : Addr) : Option PageLink :=
  (pages a).map RQueuePage.next

/-- The page before a page. -/
def prevAt (pages : Heap (RQueuePage V)) (a : Addr) : Option Addr :=
  (pages a).bind RQueuePage.prev

/-- A queue with its pages.  `exact` says whether the reader is assumed to mark the queue
as empty only while it is. -/
structure Setting where
  size : ℕ
  two_le_size : 2 ≤ size
  slots : Slots (size + 2)
  mode : RQueueMode
  exact : Prop

namespace Setting

variable (c : Setting)

/-- The page with a number. -/
abbrev slot (j : ℕ) : Addr := c.slots.slot j

theorem slot_ne {i j : ℕ} (hij : i < j) (hj : j < i + c.size + 2) : c.slot i ≠ c.slot j :=
  c.slots.ne_of_near hij hj

theorem slot_reader (j : ℕ) : c.slot (j + 1 + c.size + 1) = c.slot j := by
  rw [show j + 1 + c.size + 1 = j + (c.size + 2) by omega]
  exact c.slots.slot_add j

end Setting

/-- What every state keeps. -/
structure Inv (c : Setting) (s : SharedRQueue V) : Prop where
  mode : s.mode = c.mode
  page : ∀ j, (s.pages (c.slot j)).isSome
  link : ∀ j, s.log.swaps ≤ j → j < s.log.swaps + c.size →
    nextAt s.pages (c.slot j) = some (linkTo (c.slot (j + 1)))
  closing : nextAt s.pages (c.slot (s.log.swaps + c.size)) =
    some (flagOn (linkTo (c.slot s.log.swaps)))
  head : s.head = c.slot s.log.headMoves
  reader : s.reader = c.slot (s.log.readerMoves + c.size + 1)
  tail : s.tail = c.slot s.log.advanced.length
  commit : s.commit = c.slot (s.log.commits - 1)
  headMoves_le : s.log.headMoves ≤ s.log.swaps
  swaps_le_stored : s.log.swaps ≤ s.log.stored
  stored_le : s.log.stored ≤ s.log.advanced.length
  advanced_le : s.log.advanced.length ≤ s.log.swaps + c.size
  commits_le : s.log.commits ≤ s.log.stored
  swaps_le_commits : s.log.swaps ≤ max s.log.commits 1
  not_empty : s.isEmpty = false → 1 ≤ s.log.stored
  value : ∀ j, s.log.swaps ≤ j → j < s.log.stored →
    valueAt s.pages (c.slot j) = s.log.advanced[j]?
  returned : s.log.returned <+: s.log.advanced
  readerIdle : s.readSync = false →
    s.log.headMoves = s.log.swaps ∧ s.log.readerMoves = s.log.swaps ∧
    s.log.returned.length = s.log.swaps ∧
    prevAt s.pages (c.slot s.log.swaps) = some (c.slot (s.log.swaps + c.size))
  writerIdle : s.writeSync = false →
    s.numWriters = 0 ∧ s.log.stored = s.log.advanced.length ∧
    s.log.cleared = s.log.advanced.length ∧ s.log.commits = s.log.advanced.length ∧
    s.log.completed = s.log.advanced
  empty : c.exact → s.isEmpty = true →
    s.log.advanced.length = s.log.swaps ∨ s.log.cleared < s.log.advanced.length

/-! ## What the threads leave alone -/

/-- What only the reader changes. -/
structure ReaderPart (V : Type) where
  next : Addr → Option PageLink
  prev : Addr → Option Addr
  head : Addr
  reader : Addr
  readSync : Bool
  swaps : ℕ
  headMoves : ℕ
  readerMoves : ℕ
  returned : List V

/-- What only the writer changes. -/
structure WriterPart (V : Type) where
  tail : Addr
  commit : Addr
  writeSync : Bool
  numWriters : ℕ
  stored : ℕ
  cleared : ℕ
  commits : ℕ
  advanced : List V
  completed : List V

/-- The part of the reader. -/
def readerPart (s : SharedRQueue V) : ReaderPart V where
  next := nextAt s.pages
  prev := prevAt s.pages
  head := s.head
  reader := s.reader
  readSync := s.readSync
  swaps := s.log.swaps
  headMoves := s.log.headMoves
  readerMoves := s.log.readerMoves
  returned := s.log.returned

/-- The part of the writer. -/
def writerPart (s : SharedRQueue V) : WriterPart V where
  tail := s.tail
  commit := s.commit
  writeSync := s.writeSync
  numWriters := s.numWriters
  stored := s.log.stored
  cleared := s.log.cleared
  commits := s.log.commits
  advanced := s.log.advanced
  completed := s.log.completed

/-- What the writer does to the reader: values are added, and the value on the page that
was taken out last stays. -/
structure Adds (c : Setting) (s s' : SharedRQueue V) : Prop where
  part : readerPart s' = readerPart s
  stored_le : s.log.stored ≤ s'.log.stored
  commits_le : s.log.commits ≤ s'.log.commits
  advanced : s.log.advanced <+: s'.log.advanced
  value : ∀ j, s.log.swaps = j + 1 → valueAt s'.pages (c.slot j) = valueAt s.pages (c.slot j)

theorem Adds.refl (c : Setting) (s : SharedRQueue V) : Adds c s s :=
  ⟨rfl, Nat.le_refl _, Nat.le_refl _, List.prefix_rfl, fun _ _ => rfl⟩

theorem Adds.trans {c : Setting} {s₁ s₂ s₃ : SharedRQueue V} (h : Adds c s₁ s₂)
    (h' : Adds c s₂ s₃) : Adds c s₁ s₃ := by
  refine ⟨h'.part.trans h.part, h.stored_le.trans h'.stored_le,
    h.commits_le.trans h'.commits_le, h.advanced.trans h'.advanced, fun j hj => ?_⟩
  have hswaps : s₂.log.swaps = s₁.log.swaps := congrArg ReaderPart.swaps h.part
  rw [h'.value j (hswaps.trans hj), h.value j hj]

/-- The reader leaves the part of the writer alone. -/
def Takes (s s' : SharedRQueue V) : Prop := writerPart s' = writerPart s

/-- What the steps are assumed to do.  A write moves the tail to the page that is next in
the ring at that moment, and in overwrite mode it does not drop a value.  If it is
assumed of the reader, it marks the queue as empty only while the head is the tail. -/
def Meeting (c : Setting) : Role → SharedRQueue V → SharedRQueue V → Prop
  | .reader, s, s' =>
      c.exact → s'.isEmpty = true → s.isEmpty = true ∨ s.head = s.tail
  | .writer, s, s' =>
      (s'.tail = s.tail ∨ nextAt s.pages s.tail = some (linkTo s'.tail)) ∧
      (c.mode = .overwrite → s'.readSync = true → s.readSync = true)

/-- The specification of the reader. -/
def readerSpec (c : Setting) : Spec (SharedRQueue V) where
  inv := Inv c
  rely := Adds c
  guar := Takes
  cond := Meeting c .reader
  rely_refl := Adds.refl c
  rely_trans := fun _ _ _ => Adds.trans

/-- The specification of the writer. -/
def writerSpec (c : Setting) : Spec (SharedRQueue V) where
  inv := Inv c
  rely := Takes
  guar := Adds c
  cond := Meeting c .writer
  rely_refl := fun _ => rfl
  rely_trans := fun _ _ _ h₁ h₂ => Eq.trans h₂ h₁

/-! ## Steps -/

section Steps

variable {S : Spec (SharedRQueue V)} {P : SharedRQueue V → Prop}

theorem get_triple {β : Type} {f : SharedRQueue V → β} {Q : β → SharedRQueue V → Prop}
    (hrefl : ∀ s, S.guar s s) (hP : Stable S P) (h : ∀ s, S.inv s → P s → Q (f s) s) :
    Triple S P (get f) Q := by
  refine Triple.atomic hP fun s s' r hinv hs hf _ => ?_
  cases hf
  exact ⟨hinv, hrefl s, h s hinv hs⟩

theorem get_keeps {β : Type} {f : SharedRQueue V → β} (hrefl : ∀ s, S.guar s s)
    (hP : Stable S P) : Triple S P (get f) (fun _ => P) :=
  get_triple hrefl hP fun _ _ hs => hs

theorem readPage_triple {β : Type} {page : Addr} {f : RQueuePage V → β}
    {Q : β → SharedRQueue V → Prop} (hrefl : ∀ s, S.guar s s) (hP : Stable S P)
    (h : ∀ s p, S.inv s → P s → s.pages page = some p → Q (f p) s) :
    Triple S P (readPage page f) Q := by
  refine Triple.atomic hP fun s s' r hinv hs hf _ => ?_
  obtain ⟨p, hp, heq⟩ := Option.map_eq_some_iff.mp hf
  cases heq
  exact ⟨hinv, hrefl s, h s p hinv hs hp⟩

theorem readPage_keeps {β : Type} {page : Addr} {f : RQueuePage V → β}
    (hrefl : ∀ s, S.guar s s) (hP : Stable S P) :
    Triple S P (readPage page f) (fun _ => P) :=
  readPage_triple hrefl hP fun _ _ _ hs _ => hs

theorem modify_triple {f : SharedRQueue V → SharedRQueue V} {Q : Unit → SharedRQueue V → Prop}
    (hP : Stable S P) (h : ∀ s, S.inv s → P s → S.cond s (f s) →
      S.inv (f s) ∧ S.guar s (f s) ∧ Q () (f s)) : Triple S P (modify f) Q := by
  refine Triple.atomic hP fun s s' r hinv hs hf hcond => ?_
  cases hf
  exact h s hinv hs hcond

theorem writePage_triple {page : Addr} {f : RQueuePage V → RQueuePage V}
    {Q : Unit → SharedRQueue V → Prop} (hP : Stable S P)
    (h : ∀ s p, S.inv s → P s → s.pages page = some p →
      S.inv { s with pages := s.pages.put page (f p) } ∧
      S.guar s { s with pages := s.pages.put page (f p) } ∧
      Q () { s with pages := s.pages.put page (f p) }) :
    Triple S P (writePage page f) Q := by
  refine Triple.atomic hP fun s s' r hinv hs hf _ => ?_
  obtain ⟨p, hp, heq⟩ := Option.map_eq_some_iff.mp hf
  cases heq
  exact h s p hinv hs hp

theorem casNextOf_triple {page : Addr} {expected new : PageLink}
    {note : RQueueLog V → RQueueLog V} {Q : Bool → SharedRQueue V → Prop}
    (hrefl : ∀ s, S.guar s s) (hP : Stable S P)
    (hfail : ∀ s p, S.inv s → P s → s.pages page = some p → p.next ≠ expected → Q false s)
    (hok : ∀ s p, S.inv s → P s → s.pages page = some p → p.next = expected →
      S.inv { s with pages := s.pages.put page { p with next := new }, log := note s.log } ∧
      S.guar s { s with pages := s.pages.put page { p with next := new }, log := note s.log } ∧
      Q true { s with pages := s.pages.put page { p with next := new }, log := note s.log }) :
    Triple S P (casNextOf page expected new note) Q := by
  refine Triple.atomic hP fun s s' r hinv hs hf _ => ?_
  obtain ⟨⟨pages, ok⟩, hcas, heq⟩ := Option.map_eq_some_iff.mp hf
  obtain ⟨p, hp, hcas⟩ := Option.bind_eq_some_iff.mp hcas
  by_cases hnext : p.next = expected
  · rw [if_pos hnext] at hcas
    cases hcas
    cases heq
    exact hok s p hinv hs hp hnext
  · rw [if_neg hnext] at hcas
    cases hcas
    cases heq
    exact ⟨hinv, hrefl s, hfail s p hinv hs hp hnext⟩

theorem lockRead_triple {Q : Bool → SharedRQueue V → Prop} (hrefl : ∀ s, S.guar s s)
    (hP : Stable S P) (hfail : ∀ s, S.inv s → P s → s.readSync = true → Q false s)
    (hok : ∀ s, S.inv s → P s → s.readSync = false → S.cond s { s with readSync := true } →
      S.inv { s with readSync := true } ∧ S.guar s { s with readSync := true } ∧
      Q true { s with readSync := true }) : Triple S P lockRead Q := by
  refine Triple.atomic hP fun s s' r hinv hs hf hcond => ?_
  cases hsync : s.readSync with
  | true =>
      rw [hsync, if_pos rfl] at hf
      cases hf
      exact ⟨hinv, hrefl s, hfail s hinv hs hsync⟩
  | false =>
      rw [hsync, if_neg Bool.false_ne_true] at hf
      cases hf
      exact hok s hinv hs hsync hcond

theorem casValue_triple [DecidableEq V] {page : Addr} {expected new : Option V}
    {note : RQueueLog V → RQueueLog V} {Q : Bool → SharedRQueue V → Prop}
    (hrefl : ∀ s, S.guar s s) (hP : Stable S P)
    (hfail : ∀ s, S.inv s → P s → Q false s)
    (hok : ∀ s p, S.inv s → P s → s.pages page = some p → p.value = expected →
      S.inv { s with pages := s.pages.put page { p with value := new }, log := note s.log } ∧
      S.guar s { s with pages := s.pages.put page { p with value := new }, log := note s.log } ∧
      Q true { s with pages := s.pages.put page { p with value := new }, log := note s.log }) :
    Triple S P (casValue page expected new note) Q := by
  refine Triple.atomic hP fun s s' r hinv hs hf _ => ?_
  obtain ⟨p, hp, heq⟩ := Option.map_eq_some_iff.mp hf
  by_cases hvalue : p.value = expected
  · rw [if_pos hvalue] at heq
    cases heq
    exact hok s p hinv hs hp hvalue
  · rw [if_neg hvalue] at heq
    cases heq
    exact ⟨hinv, hrefl s, hfail s hinv hs⟩

end Steps

/-! ## Fields of pages after a store -/

section Pages

variable {pages : Heap (RQueuePage V)} {a b : Addr} {p p' : RQueuePage V}

theorem nextAt_put (ha : pages a = some p) :
    nextAt (pages.put a p') = Function.update (nextAt pages) a (some p'.next) := by
  funext b
  by_cases hb : b = a
  · subst hb
    simp [nextAt, Heap.put_apply, ha]
  · simp [nextAt, Heap.put_apply, hb]

theorem prevAt_put (ha : pages a = some p) :
    prevAt (pages.put a p') = Function.update (prevAt pages) a p'.prev := by
  funext b
  by_cases hb : b = a
  · subst hb
    simp [prevAt, Heap.put_apply, ha]
  · simp [prevAt, Heap.put_apply, hb]

theorem valueAt_put (ha : pages a = some p) :
    valueAt (pages.put a p') = Function.update (valueAt pages) a p'.value := by
  funext b
  by_cases hb : b = a
  · subst hb
    simp [valueAt, Heap.put_apply, ha]
  · simp [valueAt, Heap.put_apply, hb]

theorem isSome_put (hb : (pages b).isSome) : ((pages.put a p') b).isSome := by
  rw [Heap.put_apply]
  grind

theorem nextAt_eq (ha : pages a = some p) : nextAt pages a = some p.next := by
  rw [nextAt, ha]
  rfl

theorem prevAt_eq (ha : pages a = some p) : prevAt pages a = p.prev := by
  rw [prevAt, ha]
  rfl

theorem valueAt_eq (ha : pages a = some p) : valueAt pages a = p.value := by
  rw [valueAt, ha]
  rfl

end Pages

end SharedRQueue
end LibHL
