import LibHL.HashTable.KeyUniqueness
import LibHL.Support.FiniteMap

/-!
# The hash table is a finite map

Calls with non-empty keys and non-null values of positive length, in any order
and with any callback decisions, answer as a finite map from byte strings to
values does.  The map knows nothing of buckets, hashes or growth.  Only the
order in which an iterator meets the entries is left open.
-/

namespace LibHL
namespace HashTable

/-! ## The reference -/

/-- A key the interface accepts. -/
abbrev ProperKey := { key : Key // key ≠ [] }

/-- A readable buffer and the number of bytes of it that count. -/
structure Buffer where
  data : Data
  size : ℕ
  fits : size ≤ data.bytes.length
  deriving DecidableEq

/-- A value with at least one byte. -/
structure Value extends Buffer where
  pos : 0 < size
  deriving DecidableEq

/-- The bytes that count. -/
def Buffer.content (b : Buffer) : List UInt8 := b.data.bytes.take b.size

/-- The private copy of a value made at an address. -/
def Value.copyAt (v : Value) (a : ℕ) : Value where
  data := ⟨a, v.content⟩
  size := v.size
  fits := by
    rw [Buffer.content, List.length_take, Nat.min_eq_left v.fits]
  pos := v.pos

/-- The calls of the refinement, with well-formed arguments.  A match argument
is a buffer, or a null pointer of size zero. -/
inductive MapOp where
  | set (key : ProperKey) (v : Value)
  | setIfNotExists (key : ProperKey) (v : Value)
  | getOrSet (key : ProperKey) (v : Value) (curData curLen : Bool)
  | getAndSet (key : ProperKey) (v : Value) (prevData prevLen : Bool)
  | setCopy (key : ProperKey) (v : Value) (prevData prevLen : Bool)
  | setIfEquals (key : ProperKey) (v : Value) (matchArg : Option Buffer)
      (prevData prevLen : Bool)
  | get (key : ProperKey) (wantLen : Bool)
  | exists (key : ProperKey)
  | delete (key : ProperKey) (prevData prevLen : Bool)
  | deleteIfEquals (key : ProperKey) (matchArg : Option Buffer)
  | clear
  | foreachPair (cb : PairIterator)
  | count

/-- The size argument that goes with a match argument. -/
def matchSize (matchArg : Option Buffer) : ℕ := (matchArg.map Buffer.size).getD 0

/-- The call of the interface. -/
def MapOp.toOp : MapOp → Op
  | .set key v => .set key (some v.data) v.size
  | .setIfNotExists key v => .setIfNotExists key (some v.data) v.size
  | .getOrSet key v curData curLen => .getOrSet key (some v.data) v.size curData curLen
  | .getAndSet key v prevData prevLen =>
      .getAndSet key (some v.data) v.size prevData prevLen
  | .setCopy key v prevData prevLen => .setCopy key (some v.data) v.size prevData prevLen
  | .setIfEquals key v matchArg prevData prevLen =>
      .setIfEquals key (some v.data) v.size (matchArg.map Buffer.data)
        (matchSize matchArg) prevData prevLen
  | .get key wantLen => .get key wantLen
  | .exists key => .exists key
  | .delete key prevData prevLen => .delete key prevData prevLen
  | .deleteIfEquals key matchArg =>
      .deleteIfEquals key (matchArg.map Buffer.data) (matchSize matchArg)
  | .clear => .clear
  | .foreachPair cb => .foreachPair cb
  | .count => .count

/-- A finite map from keys to values, and the next address for a copy. -/
structure MapState where
  map : FiniteMap Key Value
  brk : ℕ

/-- What a setter or deleter reports about the value that was there. -/
def report (ret : ℤ) (prevData prevLen : Bool) (prev : Option Value) : SetResult where
  ret := ret
  prevData := writeOut prevData (prev.map fun v => v.data)
  prevLen := writeOut prevLen ((prev.map fun v => v.size).getD 0)

/-- A setter of the map; `inx` refuses to overwrite. -/
def mapSet (m : FiniteMap Key Value) (key : Key) (v : Value)
    (prevData prevLen inx : Bool) : FiniteMap Key Value × SetResult :=
  if inx ∧ (m.lookup key).isSome then
    (m, report 1 prevData prevLen (m.lookup key))
  else
    (m.insert key v, report 0 prevData prevLen (m.lookup key))

/-- Write only where the key holds the matched bytes. -/
def mapSetIfEquals (m : FiniteMap Key Value) (key : Key) (v : Value)
    (matchArg : Buffer) (prevData prevLen : Bool) : FiniteMap Key Value × SetResult :=
  match m.lookup key with
  | none => (m, ⟨-1, none, none⟩)
  | some old =>
      if old.content = matchArg.content then
        (m.insert key v, report 0 prevData prevLen (some old))
      else
        (m, report 1 prevData prevLen (some old))

/-- Delete a key, if it holds the bytes to match when there are any. -/
def mapDelete (m : FiniteMap Key Value) (key : Key) (matchArg : Option Buffer)
    (prevData prevLen : Bool) : FiniteMap Key Value × SetResult :=
  match m.lookup key with
  | none => (m, ⟨-1, none, none⟩)
  | some old =>
      if ∀ b ∈ matchArg, old.content = b.content then
        (m.erase key, report 0 prevData prevLen (some old))
      else
        (m, ⟨-1, none, none⟩)

/-- What an iterator sees of an entry. -/
def entryVisit (e : (_ : Key) × Value) : Visit := ⟨e.1, some e.2.data, e.2.size⟩

/-- Iterate over entries in the given order, removing as the callback decides. -/
def mapForeach (cb : PairIterator) :
    List Visit → List ((_ : Key) × Value) → FiniteMap Key Value →
      List Visit × FiniteMap Key Value
  | visits, [], m => (visits, m)
  | visits, e :: es, m =>
      let visits := visits ++ [entryVisit e]
      let rc := cb visits
      if rc = htIteratorContinue then mapForeach cb visits es m
      else if rc = htIteratorStop then (visits, m)
      else if rc = htIteratorRemoveAndStop then (visits, m.erase e.1)
      else mapForeach cb visits es (m.erase e.1)

/-- The answers of a finite map. -/
inductive MapStep (s : MapState) : MapOp → Out → MapState → Prop where
  | set (key : ProperKey) (v : Value) :
      MapStep s (.set key v) (.set (mapSet s.map key v false false false).2)
        ⟨(mapSet s.map key v false false false).1, s.brk⟩
  | setIfNotExists (key : ProperKey) (v : Value) :
      MapStep s (.setIfNotExists key v) (.set (mapSet s.map key v false false true).2)
        ⟨(mapSet s.map key v false false true).1, s.brk⟩
  | getOrSet (key : ProperKey) (v : Value) (curData curLen : Bool) :
      MapStep s (.getOrSet key v curData curLen)
        (.set (mapSet s.map key v curData curLen true).2)
        ⟨(mapSet s.map key v curData curLen true).1, s.brk⟩
  | getAndSet (key : ProperKey) (v : Value) (prevData prevLen : Bool) :
      MapStep s (.getAndSet key v prevData prevLen)
        (.set (mapSet s.map key v prevData prevLen false).2)
        ⟨(mapSet s.map key v prevData prevLen false).1, s.brk⟩
  | setCopy (key : ProperKey) (v : Value) (prevData prevLen : Bool) :
      MapStep s (.setCopy key v prevData prevLen)
        (.set (mapSet s.map key (v.copyAt s.brk) prevData prevLen false).2)
        ⟨(mapSet s.map key (v.copyAt s.brk) prevData prevLen false).1, s.brk + 1⟩
  | setIfEqualsNull (key : ProperKey) (v : Value) (prevData prevLen : Bool) :
      MapStep s (.setIfEquals key v none prevData prevLen)
        (.set (mapSet s.map key v false false true).2)
        ⟨(mapSet s.map key v false false true).1, s.brk⟩
  | setIfEquals (key : ProperKey) (v : Value) (b : Buffer) (prevData prevLen : Bool) :
      MapStep s (.setIfEquals key v (some b) prevData prevLen)
        (.set (mapSetIfEquals s.map key v b prevData prevLen).2)
        ⟨(mapSetIfEquals s.map key v b prevData prevLen).1, s.brk⟩
  | get (key : ProperKey) (wantLen : Bool) :
      MapStep s (.get key wantLen)
        (.value ((s.map.lookup key.1).map fun v => v.data)
          ((s.map.lookup key.1).bind fun v => writeOut wantLen v.size)) s
  | exists (key : ProperKey) :
      MapStep s (.exists key) (.found (s.map.lookup key.1).isSome) s
  | delete (key : ProperKey) (prevData prevLen : Bool) :
      MapStep s (.delete key prevData prevLen)
        (.set (mapDelete s.map key none prevData prevLen).2)
        ⟨(mapDelete s.map key none prevData prevLen).1, s.brk⟩
  | deleteIfEquals (key : ProperKey) (matchArg : Option Buffer) :
      MapStep s (.deleteIfEquals key matchArg)
        (.set (mapDelete s.map key matchArg false false).2)
        ⟨(mapDelete s.map key matchArg false false).1, s.brk⟩
  | clear : MapStep s .clear .done ⟨∅, s.brk⟩
  | foreachPair (cb : PairIterator) (es : List ((_ : Key) × Value))
      (horder : (es : Multiset ((_ : Key) × Value)) = s.map.entries) :
      MapStep s (.foreachPair cb) (.visits (mapForeach cb [] es s.map).1)
        ⟨(mapForeach cb [] es s.map).2, s.brk⟩
  | count : MapStep s .count (.count s.map.keys.card) s

/-! ## The simulation -/

/-- The item that stores an entry. -/
def entryItem (seed : UInt32) (e : (_ : Key) × Value) : HtItem :=
  freshItem seed e.1 (some e.2.data) e.2.size

/-- The table stores exactly the entries of the map. -/
structure Simulates (t : HashTable) (s : MapState) : Prop where
  inv : TableInv t
  brk : t.brk = s.brk
  entries : (stored t.toBuckets : Multiset HtItem) = s.map.entries.map (entryItem t.seed)

variable {t : HashTable} {s : MapState} {key : Key} {v : Value}

namespace Simulates

theorem absent (h : Simulates t s) (hl : s.map.lookup key = none) :
    Absent key (stored t.toBuckets) := by
  intro it hit hk
  have hmem : it ∈ (stored t.toBuckets : Multiset HtItem) := hit
  rw [h.entries] at hmem
  obtain ⟨e, he, rfl⟩ := Multiset.mem_map.mp hmem
  exact FiniteMap.fst_ne_of_lookup_none hl he hk

/-- The entry under a key is the only stored item with that key. -/
theorem present (h : Simulates t s) (hl : s.map.lookup key = some v) :
    ∃ rest, (stored t.toBuckets).Perm (entryItem t.seed ⟨key, v⟩ :: rest) ∧
      Absent key rest ∧
      (rest : Multiset HtItem) = (s.map.erase key).entries.map (entryItem t.seed) := by
  obtain ⟨rest, hrest⟩ :=
    Quot.exists_rep ((s.map.erase key).entries.map (entryItem t.seed))
  have hrest' : (rest : Multiset HtItem) =
      (s.map.erase key).entries.map (entryItem t.seed) := hrest
  refine ⟨rest, ?_, ?_, hrest'⟩
  · apply Multiset.coe_eq_coe.mp
    rw [h.entries, FiniteMap.entries_of_lookup hl, Multiset.map_cons, ← hrest',
      Multiset.cons_coe]
  · intro it hit hk
    have hmem : it ∈ (rest : Multiset HtItem) := hit
    rw [hrest'] at hmem
    obtain ⟨e, he, rfl⟩ := Multiset.mem_map.mp hmem
    exact FiniteMap.fst_ne_of_mem_erase he hk

/-- A table whose items are the entry of a key beside the other entries. -/
theorem of_insert {t' : HashTable} {m : FiniteMap Key Value} (rest : List HtItem)
    (hinv : TableInv t')
    (hperm : (stored t'.toBuckets).Perm (entryItem t'.seed ⟨key, v⟩ :: rest))
    (hrest : (rest : Multiset HtItem) = (m.erase key).entries.map (entryItem t'.seed)) :
    Simulates t' ⟨m.insert key v, t'.brk⟩ := by
  refine ⟨hinv, rfl, ?_⟩
  rw [Multiset.coe_eq_coe.mpr hperm, ← Multiset.cons_coe, hrest,
    FiniteMap.entries_insert, Multiset.map_cons]

/-! ## Setters -/

/-- A setter answers as the map does, and releases the value it replaces; `v'` is the
value it stores, the argument or its copy. -/
theorem htSetInternal_eq (h : Simulates t s) (hkey : key ≠ []) (v v' : Value) {n : ℕ}
    {copy : Bool} (hsize : v'.size = v.size)
    (hnew : newItemData t.brk (some v.data) v.size copy = some (n, some v'.data))
    (hupd : updatedItemData t.brk (some v.data) v.size copy = some (n, some v'.data))
    (prevData prevLen inx : Bool) (hinx : inx = true → n = s.brk) :
    ∃ t', t.htSetInternal key (some v.data) v.size prevData prevLen copy inx =
        some (t', (mapSet s.map key v' prevData prevLen inx).2) ∧
      Simulates t' ⟨(mapSet s.map key v' prevData prevLen inx).1, n⟩ ∧ Successor t t' ∧
      t'.released = t.released ++
        t.releases (prevData || inx) ((s.map.lookup key).map fun v => v.data) := by
  cases hl : s.map.lookup key with
  | none =>
      obtain ⟨t', hrun, hinv, hsucc, rfl, hrel, hperm⟩ :=
        htSetInternal_absent h.inv hkey (h.absent hl) hnew prevData prevLen inx
      refine ⟨t', ?_, ?_, hsucc, by simp [hrel, releases]⟩
      · simp [hrun, mapSet, hl, report]
      · simp only [mapSet, hl, Option.isSome_none, Bool.false_eq_true, and_false, if_false]
        refine of_insert (stored t.toBuckets) hinv ?_ ?_
        · rw [hsucc.seed, entryItem, hsize]
          exact hperm
        · rw [hsucc.seed, FiniteMap.erase_of_lookup_none hl]
          exact h.entries
  | some old =>
      obtain ⟨rest, hperm, habs, hrest⟩ := h.present hl
      have hpres : ¬ Absent key (stored t.toBuckets) :=
        fun hnone => hnone _ (hperm.mem_iff.mpr List.mem_cons_self) rfl
      obtain ⟨it, rest', hk, hperm', hset⟩ := htSetInternal_present h.inv hkey hpres
        (some v.data) v.size prevData prevLen copy
      obtain ⟨rfl, hrest'⟩ := perm_cons_unique hperm hperm' hk habs
      obtain ⟨hrefuse, hreplace⟩ := hset (by simp [entryItem, freshItem])
      cases inx with
      | true =>
          refine ⟨t, ?_, ?_, Successor.refl t, by simp [releases]⟩
          · simp [hrefuse, mapSet, hl, report, entryItem, freshItem]
          · have hmap : (mapSet s.map key v' prevData prevLen true).1 = s.map := by
              simp [mapSet, hl]
            rw [hmap]
            exact ⟨h.inv, h.brk.trans (hinx rfl).symm, h.entries⟩
      | false =>
          obtain ⟨t', hrun, hinv, hsucc, rfl, hrel, hperm''⟩ := hreplace n _ hupd
          refine ⟨t', ?_, ?_, hsucc, by simpa [entryItem, freshItem] using hrel⟩
          · simp [hrun, mapSet, hl, report, entryItem, freshItem]
          · simp only [mapSet, Bool.false_eq_true, false_and, if_false]
            refine of_insert rest hinv ?_ ?_
            · rw [hsucc.seed, entryItem, hsize]
              exact hperm''.trans (hrest'.cons _)
            · rw [hsucc.seed]
              exact hrest

/-! ## Calls on one entry -/

/-- The callback sees the entry of the key, and leaves another value there or
removes it. -/
theorem htCallInternal_eq {ρ : Type} (h : Simulates t s)
    (hl : s.map.lookup key = some v) {cb : PairCallback ρ} {r : CallResult ρ}
    (hcb : cb t (some v.data) v.size = some r) :
    (r.ret = 1 → ∃ t', t.htCallInternal key cb = some (t', 0, some r.out) ∧
      Simulates t' ⟨s.map.erase key, r.brk⟩) ∧
    ∀ v' : Value, r.ret ≠ 1 → r.data = some v'.data → r.dlen = v'.size →
      ∃ t', t.htCallInternal key cb = some (t', r.ret, some r.out) ∧
        Simulates t' ⟨s.map.insert key v', r.brk⟩ ∧ Successor t t' ∧
        t'.released = r.released := by
  obtain ⟨rest, hperm, habs, hrest⟩ := h.present hl
  have hpres : ¬ Absent key (stored t.toBuckets) :=
    fun hnone => hnone _ (hperm.mem_iff.mpr List.mem_cons_self) rfl
  obtain ⟨it, rest', hk, hperm', -, hcall⟩ := htCallInternal_present h.inv hpres cb
  obtain ⟨rfl, hrest'⟩ := perm_cons_unique hperm hperm' hk habs
  obtain ⟨t', hrun, hinv, hsucc, hrel, hbrk, hstored⟩ := hcall r hcb
  constructor
  · intro hret
    rw [if_pos hret] at hrun hstored
    refine ⟨t', hrun, hinv, hbrk, ?_⟩
    rw [Multiset.coe_eq_coe.mpr (hstored.trans hrest'), hsucc.seed]
    exact hrest
  · intro v' hret hdata hdlen
    rw [if_neg hret] at hrun hstored
    refine ⟨t', hrun, ?_, hsucc, hrel⟩
    rw [← hbrk]
    refine of_insert rest hinv ?_ ?_
    · rw [hsucc.seed, entryItem, ← hdata, ← hdlen]
      exact hstored.trans (hrest'.cons _)
    · rw [hsucc.seed]
      exact hrest

theorem htGet_eq (h : Simulates t s) (key : Key) (wantLen : Bool) :
    ∃ t', t.htGet key wantLen = some (t', (s.map.lookup key).map (fun v => v.data),
        (s.map.lookup key).bind fun v => writeOut wantLen v.size) ∧
      Simulates t' s ∧ Successor t t' ∧ t'.released = t.released := by
  cases hl : s.map.lookup key with
  | none =>
      refine ⟨t, ?_, h, Successor.refl t, rfl⟩
      simp [htGet, htGetInternal, htCallInternal_absent h.inv (h.absent hl)]
  | some v =>
      have hcb : htGetHelper false none wantLen t (some v.data) v.size = some {
          ret := 0
          data := some v.data
          dlen := v.size
          released := t.released
          brk := t.brk
          out := (some v.data, writeOut wantLen v.size) } := rfl
      obtain ⟨t', hrun, hsim, hsucc, hrel⟩ :=
        (h.htCallInternal_eq hl hcb).2 v (by simp) rfl rfl
      refine ⟨t', ?_, ?_, hsucc, hrel⟩
      · simp [htGet, htGetInternal, hrun]
      · rw [FiniteMap.insert_of_lookup hl] at hsim
        exact ⟨hsim.inv, hsim.brk.trans h.brk, hsim.entries⟩

theorem htExists_eq (h : Simulates t s) (key : Key) :
    t.htExists key = some (s.map.lookup key).isSome := by
  cases hl : s.map.lookup key with
  | none =>
      have habs := h.absent hl
      rcases h.inv.htGetList_cases (htHashOneAtATime t.seed key) with
        hslot | ⟨a, l, hslot, hlist⟩
      · simp [htExists, htCallNone, hslot]
      · have hnone := h.inv.find_of_absent habs hslot hlist
        simp [htExists, htCallNone, hslot, hlist, hnone]
  | some v =>
      obtain ⟨rest, hperm, -, -⟩ := h.present hl
      have hpres : ¬ Absent key (stored t.toBuckets) :=
        fun hnone => hnone _ (hperm.mem_iff.mpr List.mem_cons_self) rfl
      obtain ⟨a, l, it, hslot, hlist, hfind⟩ := h.inv.find_of_present hpres
      simp [htExists, htCallNone, hslot, hlist, hfind]

theorem content_size {b c : Buffer} (h : b.content = c.content) : b.size = c.size := by
  have hlen := congrArg List.length h
  rwa [Buffer.content, Buffer.content, List.length_take, List.length_take,
    Nat.min_eq_left b.fits, Nat.min_eq_left c.fits] at hlen

theorem readBytes_eq {b : Buffer} {n : ℕ} (hn : n = b.size) :
    readBytes (some b.data) n = some b.content := by
  subst hn
  by_cases hzero : b.size = 0
  · simp [readBytes, hzero, Buffer.content]
  · simp [readBytes, hzero, b.fits, Buffer.content]

/-- The comparison before `ht_set_if_equals` writes is the comparison of
contents. -/
theorem valueMatches_eq (v : Value) (b : Buffer) :
    valueMatches (some v.data) v.size (some b.data) b.size =
      some (decide (v.content = b.content)) := by
  by_cases hsize : b.size = v.size
  · have hv : 0 < v.data.bytes.length := Nat.lt_of_lt_of_le v.pos v.fits
    have hb : 0 < b.data.bytes.length := by
      have := b.fits
      have := v.pos
      omega
    obtain ⟨x, xs, hx⟩ := List.exists_cons_of_length_pos hv
    obtain ⟨y, ys, hy⟩ := List.exists_cons_of_length_pos hb
    by_cases hxy : x = y
    · simp [valueMatches, hsize, hx, hy, hxy, readBytes_eq hsize.symm,
        readBytes_eq (rfl : v.size = v.toBuffer.size)]
    · have hne : ¬ v.content = b.content := by
        obtain ⟨k, hk⟩ := Nat.exists_eq_succ_of_ne_zero (Nat.ne_of_gt v.pos)
        rw [Buffer.content, Buffer.content, hsize, hk, hx, hy]
        simp [hxy]
      simp [valueMatches, hsize, hx, hy, hxy, hne]
  · have hne : ¬ v.content = b.content := fun heq => hsize (content_size heq).symm
    simp [valueMatches, hsize, hne]

theorem matchRefuses_eq (v : Value) (matchArg : Option Buffer) :
    matchRefuses (some v.data) v.size (matchArg.map Buffer.data) (matchSize matchArg) =
      some (decide (¬ ∀ b ∈ matchArg, v.content = b.content)) := by
  cases matchArg with
  | none => simp [matchRefuses]
  | some b =>
      by_cases hsize : b.size = v.size
      · have hv := readBytes_eq (rfl : v.size = v.toBuffer.size)
        simp [matchRefuses, matchSize, hsize, hv, readBytes_eq hsize.symm, eq_comm]
      · have hne : ¬ v.content = b.content := fun heq => hsize (content_size heq).symm
        simp [matchRefuses, matchSize, hsize, hne]

@[simp] theorem callFreeItemCb_brk (t : HashTable) (d : Option Data) :
    (t.callFreeItemCb d).brk = t.brk := by
  unfold callFreeItemCb
  split
  · rfl
  · rfl

theorem htSetIfEquals_eq (h : Simulates t s) (key : Key) (v : Value) (b : Buffer)
    (prevData prevLen : Bool) :
    ∃ t', t.htSetIfEquals key (some v.data) v.size (some b.data) b.size
        prevData prevLen =
        some (t', (mapSetIfEquals s.map key v b prevData prevLen).2) ∧
      Simulates t' ⟨(mapSetIfEquals s.map key v b prevData prevLen).1, s.brk⟩ := by
  cases hl : s.map.lookup key with
  | none =>
      refine ⟨t, ?_, ?_⟩
      · simp [htSetIfEquals, htCallInternal_absent h.inv (h.absent hl), mapSetIfEquals, hl]
      · simp only [mapSetIfEquals, hl]
        exact h
  | some old =>
      by_cases hmatch : old.content = b.content
      · have hcb : htSetIfEqualsHelper (some v.data) v.size (some b.data) b.size
            prevData prevLen t (some old.data) old.size = some {
            ret := 0
            data := some v.data
            dlen := v.size
            released :=
              (if prevData then t else t.callFreeItemCb (some old.data)).released
            brk := t.brk
            out := (true, writeOut prevData (some old.data), writeOut prevLen old.size) } := by
          cases prevData with
          | true => simp [htSetIfEqualsHelper, valueMatches_eq, hmatch]
          | false => simp [htSetIfEqualsHelper, valueMatches_eq, hmatch]
        obtain ⟨t', hrun, hsim, -⟩ := (h.htCallInternal_eq hl hcb).2 v (by simp) rfl rfl
        refine ⟨t', ?_, ?_⟩
        · simp [htSetIfEquals, hrun, mapSetIfEquals, hl, hmatch, report]
        · simp only [mapSetIfEquals, hl, if_pos hmatch]
          rwa [← h.brk]
      · have hcb : htSetIfEqualsHelper (some v.data) v.size (some b.data) b.size
            prevData prevLen t (some old.data) old.size = some {
            ret := 0
            data := some old.data
            dlen := old.size
            released := t.released
            brk := t.brk
            out := (false, writeOut prevData (some old.data), writeOut prevLen old.size) } := by
          simp [htSetIfEqualsHelper, valueMatches_eq, hmatch]
        obtain ⟨t', hrun, hsim, -⟩ := (h.htCallInternal_eq hl hcb).2 old (by simp) rfl rfl
        refine ⟨t', ?_, ?_⟩
        · simp [htSetIfEquals, hrun, mapSetIfEquals, hl, hmatch, report]
        · simp only [mapSetIfEquals, hl, if_neg hmatch]
          rw [FiniteMap.insert_of_lookup hl] at hsim
          rwa [← h.brk]

theorem htDeleteInternal_eq (h : Simulates t s) (key : Key) (matchArg : Option Buffer)
    (prevData prevLen : Bool) :
    ∃ t', t.htDeleteInternal key false prevData prevLen (matchArg.map Buffer.data)
        (matchSize matchArg) =
        some (t', (mapDelete s.map key matchArg prevData prevLen).2) ∧
      Simulates t' ⟨(mapDelete s.map key matchArg prevData prevLen).1, s.brk⟩ := by
  cases hl : s.map.lookup key with
  | none =>
      refine ⟨t, ?_, ?_⟩
      · simp [htDeleteInternal, htCallInternal_absent h.inv (h.absent hl), mapDelete, hl]
      · simp only [mapDelete, hl]
        exact h
  | some old =>
      by_cases hmatch : ∀ b ∈ matchArg, old.content = b.content
      · have hcb : htDeleteHelper false prevData prevLen (matchArg.map Buffer.data)
            (matchSize matchArg) t (some old.data) old.size = some {
            ret := 1
            data := some old.data
            dlen := old.size
            released :=
              (if prevData then t else t.callFreeItemCb (some old.data)).released
            brk := t.brk
            out := (writeOut prevData (some old.data), writeOut prevLen old.size) } := by
          have hrefuse : decide (¬ ∀ b ∈ matchArg, old.content = b.content) = false := by
            simpa using hmatch
          cases prevData with
          | true => simp only [htDeleteHelper, matchRefuses_eq, hrefuse]; rfl
          | false =>
              simp only [htDeleteHelper, matchRefuses_eq, hrefuse]
              simp
        obtain ⟨t', hrun, hsim⟩ := (h.htCallInternal_eq hl hcb).1 rfl
        refine ⟨t', ?_, ?_⟩
        · simp only [htDeleteInternal, hrun, mapDelete, hl, if_pos hmatch]
          rfl
        · simp only [mapDelete, hl, if_pos hmatch]
          rwa [← h.brk]
      · have hcb : htDeleteHelper false prevData prevLen (matchArg.map Buffer.data)
            (matchSize matchArg) t (some old.data) old.size = some {
            ret := -1
            data := some old.data
            dlen := old.size
            released := t.released
            brk := t.brk
            out := (none, none) } := by
          have hrefuse : decide (¬ ∀ b ∈ matchArg, old.content = b.content) = true := by
            simpa using hmatch
          simp only [htDeleteHelper, matchRefuses_eq, hrefuse]
          rfl
        obtain ⟨t', hrun, hsim, -⟩ := (h.htCallInternal_eq hl hcb).2 old (by simp) rfl rfl
        refine ⟨t', ?_, ?_⟩
        · simp only [htDeleteInternal, hrun, mapDelete, hl, if_neg hmatch]
          rfl
        · simp only [mapDelete, hl, if_neg hmatch]
          rw [FiniteMap.insert_of_lookup hl] at hsim
          rwa [← h.brk]

/-! ## The whole table -/

/-- A sweep over items that store entries is an iteration over those entries. -/
theorem foreachItems_entries (seed : UInt32) (cb : PairIterator) :
    ∀ (es : List ((_ : Key) × Value)) (visits : List Visit) (m : FiniteMap Key Value)
      (others : Multiset ((_ : Key) × Value)), m.entries = ↑es + others →
      (foreachItems cb visits (es.map (entryItem seed))).visits =
          (mapForeach cb visits es m).1 ∧
        ((foreachItems cb visits (es.map (entryItem seed))).kept : Multiset HtItem) +
            others.map (entryItem seed) =
          (mapForeach cb visits es m).2.entries.map (entryItem seed) := by
  intro es
  induction es with
  | nil =>
      intro visits m others hm
      refine ⟨rfl, ?_⟩
      simp [foreachItems, mapForeach, hm]
  | cons e es ih =>
      intro visits m others hm
      have hvisit : (entryItem seed e).visit = entryVisit e := rfl
      have herase : (m.erase e.1).entries = ↑es + others := by
        apply FiniteMap.entries_erase
        rw [hm, ← Multiset.cons_coe, Multiset.cons_add]
      by_cases hcont : cb (visits ++ [entryVisit e]) = htIteratorContinue
      · obtain ⟨hvis, hkept⟩ := ih (visits ++ [entryVisit e]) m (e ::ₘ others)
          (by rw [hm, ← Multiset.cons_coe, Multiset.cons_add, Multiset.add_cons])
        simp only [List.map_cons, foreachItems, mapForeach, hvisit, if_pos hcont]
        refine ⟨hvis, ?_⟩
        rw [← hkept, ← Multiset.cons_coe, Multiset.map_cons, Multiset.cons_add,
          Multiset.add_cons]
      by_cases hstop : cb (visits ++ [entryVisit e]) = htIteratorStop
      · simp only [List.map_cons, foreachItems, mapForeach, hvisit, if_neg hcont,
          if_pos hstop]
        refine ⟨trivial, ?_⟩
        rw [hm, Multiset.map_add, Multiset.map_coe, List.map_cons]
      by_cases hrem : cb (visits ++ [entryVisit e]) = htIteratorRemoveAndStop
      · simp only [List.map_cons, foreachItems, mapForeach, hvisit, if_neg hcont,
          if_neg hstop, if_pos hrem]
        refine ⟨trivial, ?_⟩
        rw [herase, Multiset.map_add, Multiset.map_coe]
      · obtain ⟨hvis, hkept⟩ := ih (visits ++ [entryVisit e]) (m.erase e.1) others herase
        simp only [List.map_cons, foreachItems, mapForeach, hvisit, if_neg hcont,
          if_neg hstop, if_neg hrem]
        exact ⟨hvis, hkept⟩

theorem htForeachPair_eq_mapForeach (h : Simulates t s) (cb : PairIterator) :
    ∃ (t' : HashTable) (es : List ((_ : Key) × Value)),
      (es : Multiset ((_ : Key) × Value)) = s.map.entries ∧
      t.htForeachPair cb = some (t', (mapForeach cb [] es s.map).1) ∧
      Simulates t' ⟨(mapForeach cb [] es s.map).2, s.brk⟩ := by
  obtain ⟨es₀, hes₀⟩ := Quot.exists_rep s.map.entries
  have hes₀' : (es₀ : Multiset ((_ : Key) × Value)) = s.map.entries := hes₀
  have hperm : (stored t.toBuckets).Perm (es₀.map (entryItem t.seed)) := by
    apply Multiset.coe_eq_coe.mp
    rw [h.entries, ← hes₀', Multiset.map_coe]
  -- The order of the iterator list, pulled back to the entries.
  have hpull : Relation.Comp (fun l l' => l = List.map (entryItem t.seed) l') List.Perm
      (stored t.toBuckets) es₀ := by
    rw [List.eq_map_comp_perm]
    exact hperm
  obtain ⟨es, hes, hperm'⟩ := hpull
  have hentries : (es : Multiset ((_ : Key) × Value)) = s.map.entries :=
    (Multiset.coe_eq_coe.mpr hperm').trans hes₀'
  obtain ⟨hvis, hkept⟩ := foreachItems_entries t.seed cb es [] s.map 0
    (by rw [hentries, Multiset.add_zero])
  obtain ⟨t', hrun, hinv, hsucc, hbrk, -, hstored⟩ := htForeachPair_eq h.inv cb
  rw [hes] at hrun hstored
  refine ⟨t', es, hentries, ?_, hinv, hbrk.trans h.brk, ?_⟩
  · rw [hrun, hvis]
  · rw [hstored, hsucc.seed, ← hkept, Multiset.map_zero, Multiset.add_zero]

theorem htCount_eq (h : Simulates t s) : t.htCount = s.map.keys.card := by
  rw [FiniteMap.card_keys, htCount, h.inv.count, ← Multiset.coe_card, h.entries,
    Multiset.card_map]

end Simulates

/-! ## Whole runs -/

/-- Perform a call with well-formed arguments. -/
def mapCall (t : HashTable) (op : MapOp) : Option (HashTable × Out) := step t op.toOp

theorem mapCall_refines (t : HashTable) (s : MapState) (op : MapOp) (h : Simulates t s) :
    ∃ t' o s', mapCall t op = some (t', o) ∧ MapStep s op o s' ∧ Simulates t' s' := by
  have hplain : ∀ v : Value, ∀ inx : Bool, ∀ key : ProperKey, ∀ prevData prevLen,
      ∃ t', t.htSetInternal key.1 (some v.data) v.size prevData prevLen false inx =
          some (t', (mapSet s.map key v prevData prevLen inx).2) ∧
        Simulates t' ⟨(mapSet s.map key v prevData prevLen inx).1, s.brk⟩ := by
    intro v inx key prevData prevLen
    have hnew : newItemData t.brk (some v.data) v.size false =
        some (s.brk, some v.data) := by
      rw [← h.brk]
      rfl
    obtain ⟨t', hrun, hsim, -⟩ :=
      h.htSetInternal_eq key.2 v v rfl hnew hnew prevData prevLen inx fun _ => rfl
    exact ⟨t', hrun, hsim⟩
  cases op with
  | set key v =>
      obtain ⟨t', hrun, hsim⟩ := hplain v false key false false
      exact ⟨t', _, _, by simp [mapCall, MapOp.toOp, step, htSet, hrun], .set key v, hsim⟩
  | setIfNotExists key v =>
      obtain ⟨t', hrun, hsim⟩ := hplain v true key false false
      exact ⟨t', _, _, by simp [mapCall, MapOp.toOp, step, htSetIfNotExists, hrun],
        .setIfNotExists key v, hsim⟩
  | getOrSet key v curData curLen =>
      obtain ⟨t', hrun, hsim⟩ := hplain v true key curData curLen
      exact ⟨t', _, _, by simp [mapCall, MapOp.toOp, step, htGetOrSet, hrun],
        .getOrSet key v curData curLen, hsim⟩
  | getAndSet key v prevData prevLen =>
      obtain ⟨t', hrun, hsim⟩ := hplain v false key prevData prevLen
      exact ⟨t', _, _, by simp [mapCall, MapOp.toOp, step, htGetAndSet, hrun],
        .getAndSet key v prevData prevLen, hsim⟩
  | setCopy key v prevData prevLen =>
      have hzero : v.size ≠ 0 := Nat.ne_of_gt v.pos
      have hupd : updatedItemData t.brk (some v.data) v.size true =
          some (s.brk + 1, some (v.copyAt s.brk).data) := by
        simp [updatedItemData, copyData, h.brk, Value.copyAt,
          Simulates.readBytes_eq (rfl : v.size = v.toBuffer.size)]
      have hnew : newItemData t.brk (some v.data) v.size true =
          some (s.brk + 1, some (v.copyAt s.brk).data) := by
        simpa [newItemData, hzero, updatedItemData] using hupd
      obtain ⟨t', hrun, hsim, -⟩ := h.htSetInternal_eq key.2 v (v.copyAt s.brk) rfl hnew
        hupd prevData prevLen false (by simp)
      exact ⟨t', _, _, by simp [mapCall, MapOp.toOp, step, htSetCopy, hrun],
        .setCopy key v prevData prevLen, hsim⟩
  | setIfEquals key v matchArg prevData prevLen =>
      cases matchArg with
      | none =>
          obtain ⟨t', hrun, hsim⟩ := hplain v true key false false
          exact ⟨t', _, _, by
            simp [mapCall, MapOp.toOp, step, htSetIfEquals, htSetIfNotExists, matchSize, hrun],
            .setIfEqualsNull key v prevData prevLen, hsim⟩
      | some b =>
          obtain ⟨t', hrun, hsim⟩ := h.htSetIfEquals_eq key v b prevData prevLen
          exact ⟨t', _, _, by simp [mapCall, MapOp.toOp, step, matchSize, hrun],
            .setIfEquals key v b prevData prevLen, hsim⟩
  | get key wantLen =>
      obtain ⟨t', hrun, hsim, -⟩ := h.htGet_eq key wantLen
      exact ⟨t', _, s, by simp [mapCall, MapOp.toOp, step, hrun], .get key wantLen, hsim⟩
  | «exists» key =>
      have hrun := h.htExists_eq key
      exact ⟨t, _, s, by simp [mapCall, MapOp.toOp, step, hrun], .exists key, h⟩
  | delete key prevData prevLen =>
      obtain ⟨t', hrun, hsim⟩ := h.htDeleteInternal_eq key none prevData prevLen
      refine ⟨t', _, _, ?_, .delete key prevData prevLen, hsim⟩
      simpa [mapCall, MapOp.toOp, step, htDelete, matchSize] using hrun
  | deleteIfEquals key matchArg =>
      obtain ⟨t', hrun, hsim⟩ := h.htDeleteInternal_eq key matchArg false false
      exact ⟨t', _, _, by simp [mapCall, MapOp.toOp, step, htDeleteIfEquals, hrun],
        .deleteIfEquals key matchArg, hsim⟩
  | clear =>
      obtain ⟨t', hrun, hinv, hsucc, hbrk, hstored, -⟩ := htClear_eq h.inv
      refine ⟨t', _, _, by simp [mapCall, MapOp.toOp, step, hrun], .clear,
        hinv, hbrk.trans h.brk, ?_⟩
      rw [hstored]
      rfl
  | foreachPair cb =>
      obtain ⟨t', es, hes, hrun, hsim⟩ := h.htForeachPair_eq_mapForeach cb
      exact ⟨t', _, _, by simp [mapCall, MapOp.toOp, step, hrun],
        .foreachPair cb es hes, hsim⟩
  | count =>
      refine ⟨t, _, s, ?_, .count, h⟩
      simp [mapCall, MapOp.toOp, step, h.htCount_eq]

/-- Every run of the map operations on a new table, of any size, cap and seed,
succeeds with the answers of a finite map that starts empty, and leaves as many
items as the map has keys. -/
theorem mapApi_refines_finiteMap {initialSize maxSize : ℕ} {cb : Bool} {seed : UInt32}
    {t₀ : HashTable} (hcreate : htCreate initialSize maxSize cb seed = some t₀)
    (ops : List MapOp) :
    ∃ t outs s, runSteps mapCall t₀ ops = some (t, outs) ∧
      RefRuns MapStep ⟨∅, 0⟩ ops outs s ∧ t.htCount = s.map.keys.card := by
  obtain ⟨hinv, hempty, -, hbrk, -⟩ := htCreate_eq hcreate
  have hsim : Simulates t₀ ⟨∅, 0⟩ := by
    refine ⟨hinv, hbrk, ?_⟩
    rw [hempty]
    rfl
  obtain ⟨t, outs, s, hrun, hrefs, hsim'⟩ :=
    runSteps_refines_choice mapCall_refines ops t₀ ⟨∅, 0⟩ hsim
  exact ⟨t, outs, s, hrun, hrefs, hsim'.htCount_eq⟩

theorem mapApi_refines_finiteMap_small :
    ∃ t₀, htCreate 4 300 true 9 = some t₀ ∧ ∀ ops, ∃ t outs s,
      runSteps mapCall t₀ ops = some (t, outs) ∧
      RefRuns MapStep ⟨∅, 0⟩ ops outs s ∧ t.htCount = s.map.keys.card := by
  have hcreate : (htCreate 4 300 true 9).isSome := by decide
  obtain ⟨t₀, ht₀⟩ := Option.isSome_iff_exists.mp hcreate
  exact ⟨t₀, ht₀, mapApi_refines_finiteMap ht₀⟩

end HashTable
end LibHL
