import LibHL.LinkedList.Refinement

/-!
# Tagged values in a list

A tagged value is a value with a name.  The values live in a heap of their own, and the
list stores pointers to them.  Setting a name replaces the first value that has it; if
there is none, the new value is pushed, and then destroyed although the list points to it.
-/

namespace LibHL

/-- What the `value` field points to: memory of the caller, or a copy. -/
inductive TaggedContent (V : Type) where
  | borrowed (val : V)
  | copied (bytes : List UInt8)
  deriving DecidableEq

/-- `tagged_value_t`, without the type of its value, which plays a part only when a value
that is a list is destroyed.  Tags are strings without their terminating zero. -/
structure TaggedValue (V : Type) where
  tag : Option (List UInt8)
  value : Option (TaggedContent V)
  vlen : ℕ
  deriving DecidableEq

/-- A list of tagged values, with the heap they are allocated in. -/
structure TaggedList (V : Type) where
  list : LinkedList Addr
  tagged : Heap (TaggedValue V)

namespace TaggedList

variable {V : Type}

/-! ## Creating and destroying -/

/-- What `list_create_tagged_value` stores: a copy of the given number of bytes, or of a
string if that is zero.  `mem` is the memory that can be read behind a pointer. -/
def copyValue (mem : V → List UInt8) (val : V) (vlen : ℕ) :
    Option (TaggedContent V × ℕ) :=
  let bytes := mem val
  if vlen ≠ 0 then
    if vlen ≤ bytes.length then some (.copied (bytes.take vlen ++ [0]), vlen) else none
  else
    let string := bytes.takeWhile (· ≠ 0)
    if string.length < bytes.length then some (.copied (string ++ [0]), string.length) else none

/-- The tagged value that `list_create_tagged_value`, or its variant without copying,
fills in. -/
def newTagged (mem : V → List UInt8) (tag : List UInt8) (val : Option V) (vlen : ℕ)
    (copy : Bool) : Option (TaggedValue V) :=
  match val with
  | none => some ⟨some tag, none, 0⟩
  | some val =>
      if copy then do
        let content ← copyValue mem val vlen
        some ⟨some tag, some content.1, content.2⟩
      else
        some ⟨some tag, some (.borrowed val), 0⟩

/-- `list_create_tagged_value` and `list_create_tagged_value_nocopy`. -/
def createTagged (mem : V → List UInt8) (s : TaggedList V) (tag : List UInt8)
    (val : Option V) (vlen : ℕ) (copy : Bool) : Option (TaggedList V × Addr) := do
  let tv ← newTagged mem tag val vlen copy
  let (tagged, tval) := s.tagged.alloc tv
  some ({ s with tagged := tagged }, tval)

/-- `list_destroy_tagged_value`. -/
def listDestroyTaggedValue (s : TaggedList V) (tval : Addr) : Option (TaggedList V) := do
  let tagged ← s.tagged.free tval
  some { s with tagged := tagged }

/-- `list_push_tagged_value`. -/
def listPushTaggedValue (s : TaggedList V) (tval : Option Addr) :
    Option (TaggedList V × ℤ) :=
  match tval with
  | none => some (s, 0)
  | some a => do
      let (l, res) ← s.list.listPushValue (some a)
      some ({ s with list := l }, res)

/-! ## Looking for a tag -/

/-- The loops that look through the values in order, from index `i` on, for the given
number of rounds: the index and the address of the first one that passes a test.  The test
has no result if it reads a null pointer. -/
def scan (test : TaggedValue V → Option Bool) :
    ℕ → TaggedList V → ℕ → Option (TaggedList V × Option (ℕ × Addr))
  | 0, s, _ => some (s, none)
  | rounds + 1, s, i => do
      let (l, v) ← s.list.listPickValue i
      let s := { s with list := l }
      match v with
      | none => scan test rounds s (i + 1)
      | some a => do
          let tv ← s.tagged a
          if ← test tv then some (s, some (i, a)) else scan test rounds s (i + 1)

/-- `i < (int)list->length` holds for this number of rounds. -/
def rounds (s : TaggedList V) : ℕ := (cInt s.list.listCount).toNat

/-- The test of `list_set_tagged_value`: a null tag does not match. -/
def setTest (tag : List UInt8) (tv : TaggedValue V) : Option Bool :=
  some (tv.tag.any fun t => t.headD 0 = tag.headD 0 ∧ t = tag)

/-- The test of `list_get_tagged_value`, which compares at once. -/
def getTest (tag : List UInt8) (tv : TaggedValue V) : Option Bool :=
  tv.tag.map fun t => t = tag

/-- `list_set_tagged_value`. -/
def listSetTaggedValue (mem : V → List UInt8) (s : TaggedList V) (tag : List UInt8)
    (value : Option V) (len : ℕ) (copy : Bool) : Option (TaggedList V × Option Addr) := do
  let (s, tval) ← createTagged mem s tag value len copy
  let (s, found) ← scan (setTest tag) s.rounds s 0
  match found with
  | some (i, tv) => do
      let (l, old) ← s.list.listSetValue i (some tval)
      let s := { s with list := l }
      match old with
      | none => do
          let s ← s.listDestroyTaggedValue tval
          some (s, none)
      | some _ => some (s, some tv)
  | none => do
      let (s, res) ← s.listPushTaggedValue (some tval)
      -- A push that succeeds returns zero.
      let s ← if res = 0 then s.listDestroyTaggedValue tval else some s
      some (s, none)

/-- `list_get_tagged_value`. -/
def listGetTaggedValue (s : TaggedList V) (tag : List UInt8) :
    Option (TaggedList V × Option Addr) := do
  let (s, found) ← scan (getTest tag) s.rounds s 0
  some (s, found.map Prod.snd)

/-! ## Scans -/

open LinkedList (Represents)

/-- The list holds the values `xs`, of which those that are not null are alive. -/
structure Holds (s : TaggedList V) (xs : List (Option Addr)) : Prop where
  represents : ∃ ps, Represents s.list ps xs
  live : ∀ a, some a ∈ xs → (s.tagged a).isSome

variable {s s' : TaggedList V} {xs ys : List (Option Addr)} {tag : List UInt8}
  {test : TaggedValue V → Option Bool} {k : ℕ} {a : Addr} {tv : TaggedValue V}

theorem Holds.listCount_eq (h : Holds s xs) : s.list.listCount = xs.length := by
  obtain ⟨ps, hrep⟩ := h.represents
  exact hrep.listCount_eq

/-- The scan goes past a value. -/
def PassesOver (test : TaggedValue V → Option Bool) (tagged : Heap (TaggedValue V))
    (x : Option Addr) : Prop :=
  ∀ a, x = some a → ∃ tv, tagged a = some tv ∧ test tv = some false

/-- One round of a scan. -/
theorem Holds.pick (h : Holds s xs) (hlen : xs.length < 2 ^ 31) (i : ℕ) :
    ∃ l, s.list.listPickValue i = some (l, LinkedList.valueOrNull xs i) ∧
      Holds { s with list := l } xs := by
  obtain ⟨ps, hrep⟩ := h.represents
  obtain ⟨l, hrun, hrep'⟩ := hrep.listPickValue_eq (hrep.length_eq ▸ hlen) i
  exact ⟨l, hrun, ⟨ps, hrep'⟩, h.live⟩

theorem scan_pass (h : Holds s xs) (hlen : xs.length < 2 ^ 31) (n : ℕ) {i : ℕ}
    (hpass : PassesOver test s.tagged (LinkedList.valueOrNull xs i)) :
    ∃ s', scan test (n + 1) s i = scan test n s' (i + 1) ∧ Holds s' xs ∧
      s'.tagged = s.tagged := by
  obtain ⟨l, hrun, h'⟩ := h.pick hlen i
  refine ⟨{ s with list := l }, ?_, h', rfl⟩
  cases hx : LinkedList.valueOrNull xs i with
  | none => simp [scan, hrun, hx]
  | some a =>
      obtain ⟨tv, htv, hfalse⟩ := hpass a hx
      simp [scan, hrun, hx, htv, hfalse]

/-- A scan comes to an index if it goes past everything before. -/
theorem scan_reach (test : TaggedValue V → Option Bool) (hlen : xs.length < 2 ^ 31) :
    ∀ (k i n : ℕ) (s : TaggedList V),
    Holds s xs → (∀ j < k, PassesOver test s.tagged (LinkedList.valueOrNull xs (i + j))) →
    ∃ s', scan test (k + n) s i = scan test n s' (i + k) ∧ Holds s' xs ∧
      s'.tagged = s.tagged := by
  intro k
  induction k with
  | zero =>
      intro i n s h _
      exact ⟨s, by rw [Nat.zero_add, Nat.add_zero], h, rfl⟩
  | succ k ih =>
      intro i n s h hpass
      have hfirst := hpass 0 (Nat.succ_pos k)
      obtain ⟨s₁, hrun, h₁, htagged₁⟩ := scan_pass h hlen (k + n) hfirst
      obtain ⟨s₂, hrun₂, h₂, htagged₂⟩ := ih (i + 1) n s₁ h₁ fun j hj => by
        rw [htagged₁, Nat.add_assoc, Nat.add_comm 1 j]
        exact hpass (j + 1) (Nat.succ_lt_succ hj)
      refine ⟨s₂, ?_, h₂, htagged₂.trans htagged₁⟩
      have hidx : i + 1 + k = i + (k + 1) := by omega
      rw [Nat.succ_add, ← hidx]
      exact hrun.trans hrun₂

theorem rounds_eq (h : Holds s xs) (hlen : xs.length < 2 ^ 31) : s.rounds = xs.length := by
  rw [rounds, h.listCount_eq, cInt, Int.bmod_def]
  omega

/-- A scan that goes past everything finds nothing. -/
theorem scan_none (h : Holds s xs) (hlen : xs.length < 2 ^ 31)
    (hpass : ∀ x ∈ xs, PassesOver test s.tagged x) :
    ∃ s', scan test s.rounds s 0 = some (s', none) ∧ Holds s' xs ∧ s'.tagged = s.tagged := by
  obtain ⟨s', hrun, h', htagged⟩ := scan_reach test hlen xs.length 0 0 s h
    fun j hj => by
      rw [Nat.zero_add, LinkedList.valueOrNull, List.getElem?_eq_getElem hj]
      exact hpass _ (List.getElem_mem hj)
  refine ⟨s', ?_, h', htagged⟩
  rw [rounds_eq h hlen]
  exact hrun

/-- A scan that comes to a value depends on the test of that value. -/
theorem scan_at (h : Holds s xs) (hlen : xs.length < 2 ^ 31) (hk : xs[k]? = some (some a))
    (htv : s.tagged a = some tv)
    (hpass : ∀ j < k, PassesOver test s.tagged (LinkedList.valueOrNull xs j)) :
    (test tv = some true → ∃ s', scan test s.rounds s 0 = some (s', some (k, a)) ∧
      Holds s' xs ∧ s'.tagged = s.tagged) ∧
    (test tv = none → scan test s.rounds s 0 = none) := by
  have hklt := (List.getElem?_eq_some_iff.mp hk).1
  obtain ⟨n, hn⟩ : ∃ n, xs.length = k + (n + 1) := ⟨xs.length - k - 1, by omega⟩
  obtain ⟨s₁, hrun, h₁, htagged⟩ := scan_reach test hlen k 0 (n + 1) s h
    fun j hj => by
      rw [Nat.zero_add]
      exact hpass j hj
  obtain ⟨l, hpick, h₂⟩ := h₁.pick hlen k
  have hvalue : LinkedList.valueOrNull xs k = some a := by
    rw [LinkedList.valueOrNull, hk]
    rfl
  rw [← htagged] at htv
  rw [Nat.zero_add] at hrun
  rw [rounds_eq h hlen, hn, hrun]
  constructor
  · intro htrue
    refine ⟨{ s₁ with list := l }, ?_, h₂, htagged⟩
    simp [scan, hpick, hvalue, htv, htrue]
  · intro hnone
    simp [scan, hpick, hvalue, htv, hnone]

/-! ## What setting a tag should do -/

/-- A value has the tag. -/
def HasTag (s : TaggedList V) (tag : List UInt8) (x : Option Addr) : Bool :=
  x.any fun a => (s.tagged a).any fun tv => tv.tag = some tag

/-- The index of the first value with the tag. -/
def firstTagged (s : TaggedList V) (tag : List UInt8) (xs : List (Option Addr)) : Option ℕ :=
  xs.findIdx? (HasTag s tag)

/-- The first value with the tag is replaced by a new one and returned, or a new one is
appended and null is returned.  The list holds live values only, the old values are as they
were, and looking for the tag finds the new one. -/
def SetsTag (mem : V → List UInt8) (s : TaggedList V) (xs : List (Option Addr))
    (tag : List UInt8) (value : Option V) (len : ℕ) (copy : Bool) : Prop :=
  ∃ s' old a, listSetTaggedValue mem s tag value len copy = some (s', old) ∧
    Holds s' ((firstTagged s tag xs).elim (xs ++ [some a]) fun i => xs.set i (some a)) ∧
    old = (firstTagged s tag xs).elim none (LinkedList.valueOrNull xs) ∧
    s'.tagged a = newTagged mem tag value len copy ∧
    (∀ b, some b ∈ xs → s'.tagged b = s.tagged b) ∧
    ∃ s'', listGetTaggedValue s' tag = some (s'', some a)

/-- The tag is present, and nothing before it lacks a tag. -/
def TaggedBefore (s : TaggedList V) (tag : List UInt8) (xs : List (Option Addr)) : Prop :=
  ∃ i, firstTagged s tag xs = some i ∧
    ∀ j < i, ∀ b, xs[j]? = some (some b) → (s.tagged b).all fun tv => tv.tag.isSome

theorem hasTag_some (htv : s.tagged a = some tv) :
    HasTag s tag (some a) = decide (tv.tag = some tag) := by
  simp [HasTag, htv]

theorem setTest_eq (tag : List UInt8) (tv : TaggedValue V) :
    setTest tag tv = some (decide (tv.tag = some tag)) := by
  cases htag : tv.tag with
  | none => simp [setTest, htag]
  | some t =>
      by_cases heq : t = tag
      · simp [setTest, htag, heq]
      · simp [setTest, htag, heq]

theorem passesOver_setTest (h : Holds s xs) {x : Option Addr} (hx : x ∈ xs)
    (hnot : HasTag s tag x = false) : PassesOver (setTest tag) s.tagged x := by
  rintro a rfl
  obtain ⟨tv, htv⟩ := Option.isSome_iff_exists.mp (h.live a hx)
  rw [hasTag_some htv] at hnot
  exact ⟨tv, htv, by rw [setTest_eq, hnot]⟩

/-- The first value with the tag. -/
theorem firstTagged_spec {i : ℕ} (hi : firstTagged s tag xs = some i) :
    ∃ b tv, xs[i]? = some (some b) ∧ s.tagged b = some tv ∧ tv.tag = some tag ∧
      ∀ j x, j < i → xs[j]? = some x → HasTag s tag x = false := by
  obtain ⟨hlt, hhas, hbefore⟩ := List.findIdx?_eq_some_iff_getElem.mp hi
  cases hx : xs[i] with
  | none =>
      rw [hx] at hhas
      cases hhas
  | some b =>
      rw [hx] at hhas
      have hany : (s.tagged b).any (fun tv => tv.tag = some tag) = true := hhas
      obtain ⟨tv, htv, htag⟩ := (Option.any_eq_true _ _).mp hany
      refine ⟨b, tv, ?_, htv, of_decide_eq_true htag, ?_⟩
      · rw [List.getElem?_eq_getElem hlt, hx]
      · intro j x hj hjx
        obtain ⟨hjlt, rfl⟩ := List.getElem?_eq_some_iff.mp hjx
        exact Bool.eq_false_iff.mpr (hbefore j hj)

/-! ## What it does -/

section Set

variable {mem : V → List UInt8} {value : Option V} {len : ℕ} {copy : Bool} {tv₀ : TaggedValue V}

theorem newTagged_tag (hnew : newTagged mem tag value len copy = some tv₀) :
    tv₀.tag = some tag := by
  cases value with
  | none =>
      cases hnew
      rfl
  | some val =>
      cases copy with
      | false =>
          cases hnew
          rfl
      | true =>
          obtain ⟨content, -, heq⟩ := Option.bind_eq_some_iff.mp hnew
          cases heq
          rfl

/-- The new tagged value lies apart from those in the list. -/
theorem createTagged_spec (h : Holds s xs)
    (hnew : newTagged mem tag value len copy = some tv₀) :
    ∃ s₁ a, createTagged mem s tag value len copy = some (s₁, a) ∧ s₁.list = s.list ∧
      s₁.tagged a = some tv₀ ∧ some a ∉ xs ∧
      (∀ b, some b ∈ xs → s₁.tagged b = s.tagged b) ∧ Holds s₁ xs := by
  have hne : ∀ b, some b ∈ xs → b ≠ s.tagged.brk := by
    rintro b hb rfl
    have hlive := h.live _ hb
    rw [Heap.brk_apply] at hlive
    cases hlive
  have hkeep : ∀ b, some b ∈ xs → (s.tagged.alloc tv₀).1 b = s.tagged b :=
    fun b hb => if_neg (hne b hb)
  refine ⟨{ s with tagged := (s.tagged.alloc tv₀).1 }, s.tagged.brk, ?_, rfl, if_pos rfl,
    fun hmem => hne _ hmem rfl, hkeep, h.represents, ?_⟩
  · simp [createTagged, hnew]
  · intro b hb
    rw [hkeep b hb]
    exact h.live b hb

/-- The tag is present: the first value that has it is replaced. -/
theorem listSetTaggedValue_present (h : Holds s xs) (hlen : xs.length < 2 ^ 31)
    (hnew : newTagged mem tag value len copy = some tv₀) {i : ℕ}
    (hi : firstTagged s tag xs = some i) :
    ∃ s' a, listSetTaggedValue mem s tag value len copy =
        some (s', LinkedList.valueOrNull xs i) ∧ Holds s' (xs.set i (some a)) ∧
      s'.tagged a = some tv₀ ∧ some a ∉ xs ∧ ∀ b, some b ∈ xs → s'.tagged b = s.tagged b := by
  obtain ⟨s₁, a, hcreate, -, ha, hfresh, hkeep, h₁⟩ := createTagged_spec h hnew
  obtain ⟨b, tv, hb, htv, htag, hbefore⟩ := firstTagged_spec hi
  have hbmem : some b ∈ xs := List.mem_of_getElem? hb
  have hvalue : LinkedList.valueOrNull xs i = some b := by
    rw [LinkedList.valueOrNull, hb]
    rfl
  have hpass : ∀ j < i, PassesOver (setTest tag) s₁.tagged (LinkedList.valueOrNull xs j) := by
    intro j hj
    have hjlt : j < xs.length := Nat.lt_trans hj (List.getElem?_eq_some_iff.mp hb).1
    have hjx := List.getElem?_eq_getElem hjlt
    rw [LinkedList.valueOrNull, hjx]
    intro c hc
    have hcmem : some c ∈ xs := hc ▸ List.getElem_mem hjlt
    rw [hkeep c hcmem]
    exact passesOver_setTest h (List.getElem_mem hjlt) (hbefore j _ hj hjx) c hc
  have htv₁ : s₁.tagged b = some tv := (hkeep b hbmem).trans htv
  obtain ⟨s₂, hscan, h₂, htagged₂⟩ := (scan_at h₁ hlen hb htv₁ hpass).1
    (by rw [setTest_eq, htag, decide_eq_true rfl])
  obtain ⟨ps, hrep⟩ := h₂.represents
  obtain ⟨l, ps', hset, hrep'⟩ :=
    hrep.listSetValue_eq (hrep.length_eq ▸ hlen) i (some a)
  rw [if_pos (List.getElem?_eq_some_iff.mp hb).1] at hrep'
  rw [hvalue] at hset
  refine ⟨{ s₂ with list := l }, a, ?_, ⟨⟨ps', hrep'⟩, ?_⟩, ?_, hfresh, ?_⟩
  · rw [hvalue]
    exact Option.bind_eq_some_iff.mpr ⟨_, hcreate, Option.bind_eq_some_iff.mpr
      ⟨_, hscan, Option.bind_eq_some_iff.mpr ⟨_, hset, rfl⟩⟩⟩
  · intro c hc
    show (s₂.tagged c).isSome
    rw [htagged₂]
    rcases List.mem_or_eq_of_mem_set hc with hmem | heq
    · exact h₁.live c hmem
    · cases heq
      rw [ha]
      rfl
  · exact (congrArg (fun t : Heap (TaggedValue V) => t a) htagged₂).trans ha
  · intro c hc
    exact (congrArg (fun t : Heap (TaggedValue V) => t c) htagged₂).trans (hkeep c hc)

/-- Once the first value with the tag has been replaced, the tag is found exactly if no
value before it lacks a tag. -/
theorem listGetTaggedValue_replaced (h : Holds s xs) (hlen : xs.length < 2 ^ 31) {i : ℕ}
    (hi : firstTagged s tag xs = some i) (h' : Holds s' (xs.set i (some a)))
    (ha : s'.tagged a = some tv₀) (htag : tv₀.tag = some tag)
    (hkeep : ∀ b, some b ∈ xs → s'.tagged b = s.tagged b) :
    (∃ s'', listGetTaggedValue s' tag = some (s'', some a)) ↔ TaggedBefore s tag xs := by
  obtain ⟨b₀, -, hb₀, -, -, hbefore⟩ := firstTagged_spec hi
  have hilt := (List.getElem?_eq_some_iff.mp hb₀).1
  have hlen' : (xs.set i (some a)).length < 2 ^ 31 := by rwa [List.length_set]
  have hsame : ∀ j < i, (xs.set i (some a))[j]? = xs[j]? :=
    fun j hj => List.getElem?_set_ne (Nat.ne_of_gt hj)
  have hpass : ∀ k ≤ i, (∀ j < k, ∀ b, xs[j]? = some (some b) →
      (s.tagged b).all fun tv => tv.tag.isSome) → ∀ j < k,
      PassesOver (getTest tag) s'.tagged (LinkedList.valueOrNull (xs.set i (some a)) j) := by
    intro k hk hall j hj
    rw [LinkedList.valueOrNull, hsame j (Nat.lt_of_lt_of_le hj hk)]
    intro b hb
    have hjb : xs[j]? = some (some b) := by
      cases hx : xs[j]? with
      | none =>
          rw [hx] at hb
          cases hb
      | some x =>
          rw [hx] at hb
          exact congrArg some hb
    have hmem := List.mem_of_getElem? hjb
    obtain ⟨tv, htv⟩ := Option.isSome_iff_exists.mp (h.live b hmem)
    have hsome := hall j hj b hjb
    rw [htv] at hsome
    obtain ⟨t, ht⟩ := Option.isSome_iff_exists.mp hsome
    have hnot := hbefore j _ (Nat.lt_of_lt_of_le hj hk) hjb
    rw [hasTag_some htv, ht] at hnot
    refine ⟨tv, (hkeep b hmem).trans htv, ?_⟩
    have hne : ¬ t = tag := fun heq => of_decide_eq_false hnot (congrArg some heq)
    simp [getTest, ht, hne]
  have hat : (xs.set i (some a))[i]? = some (some a) := List.getElem?_set_self hilt
  constructor
  · rintro ⟨s'', hget⟩
    refine ⟨i, hi, ?_⟩
    intro j
    induction j using Nat.strongRecOn with
    | ind j ih =>
        intro hj b hjb
        by_contra hnot
        -- The first value without a tag is compared.
        have hmem := List.mem_of_getElem? hjb
        obtain ⟨tv, htv⟩ := Option.isSome_iff_exists.mp (h.live b hmem)
        have hnull : tv.tag = none := by
          rw [htv] at hnot
          exact Option.not_isSome_iff_eq_none.mp hnot
        have htest : getTest tag tv = none := by
          rw [getTest, hnull]
          rfl
        have hstuck := (scan_at h' hlen' ((hsame j hj).trans hjb) ((hkeep b hmem).trans htv)
          (hpass j (Nat.le_of_lt hj) fun k hk => ih k hk (Nat.lt_trans hk hj))).2 htest
        rw [listGetTaggedValue, hstuck] at hget
        cases hget
  · rintro ⟨k, hk, hall⟩
    rw [hi] at hk
    cases hk
    obtain ⟨s'', hscan, -⟩ := (scan_at h' hlen' hat ha (hpass i (Nat.le_refl i) hall)).1
      (by rw [getTest, htag]; exact congrArg some (decide_eq_true rfl))
    exact ⟨s'', by simp [listGetTaggedValue, hscan]⟩

/-- When the scan finds nothing, the list is left with a pointer to a destroyed value. -/
theorem not_setsTag_of_scan {s₁ s₂ : TaggedList V}
    (hcreate : createTagged mem s tag value len copy = some (s₁, a))
    (ha : s₁.tagged a = some tv₀) (hscan : scan (setTest tag) s₁.rounds s₁ 0 = some (s₂, none))
    (h₂ : Holds s₂ xs) (htagged : s₂.tagged = s₁.tagged) :
    ¬ SetsTag mem s xs tag value len copy := by
  obtain ⟨ps, hrep⟩ := h₂.represents
  obtain ⟨l, ps', hpush, hrep'⟩ := hrep.listPushValue_eq (some a)
  have ha₂ : s₂.tagged a = some tv₀ := htagged ▸ ha
  have hpushed : s₂.listPushTaggedValue (some a) = some ({ s₂ with list := l }, 0) :=
    Option.bind_eq_some_iff.mpr ⟨_, hpush, rfl⟩
  have hfreed : ({ s₂ with list := l } : TaggedList V).listDestroyTaggedValue a =
      some ⟨l, s₂.tagged.kill a⟩ :=
    Option.bind_eq_some_iff.mpr ⟨_, Heap.free_eq_some ha₂, rfl⟩
  have hrun : listSetTaggedValue mem s tag value len copy =
      some (⟨l, s₂.tagged.kill a⟩, none) :=
    Option.bind_eq_some_iff.mpr ⟨_, hcreate, Option.bind_eq_some_iff.mpr
      ⟨_, hscan, Option.bind_eq_some_iff.mpr ⟨_, hpushed,
        Option.bind_eq_some_iff.mpr ⟨_, hfreed, rfl⟩⟩⟩⟩
  rintro ⟨s', old, b, hrun', hholds, -⟩
  rw [hrun] at hrun'
  cases hrun'
  obtain ⟨qs, hrep''⟩ := hholds.represents
  have hmem : some a ∈ (firstTagged s tag xs).elim (xs ++ [some b])
      fun i => xs.set i (some b) := by
    rw [← (hrep'.unique hrep'').2]
    exact List.mem_append_right _ List.mem_cons_self
  have hlive : ((s₂.tagged.kill a) a).isSome := hholds.live a hmem
  rw [Heap.kill_apply, if_pos rfl] at hlive
  cases hlive

end Set

/-- Setting a tag does what it should if the tag is present, nothing before its first value
lacks a tag, and there are fewer than `2 ^ 31` values; and only then, except perhaps with
`2 ^ 32` values or more. -/
theorem setsTag_iff_taggedBefore (mem : V → List UInt8) (s : TaggedList V)
    (xs : List (Option Addr)) (h : Holds s xs) (tag : List UInt8) (value : Option V) (len : ℕ)
    (copy : Bool) (hnew : (newTagged mem tag value len copy).isSome) :
    (xs.length < 2 ^ 31 ∧ TaggedBefore s tag xs → SetsTag mem s xs tag value len copy) ∧
    (xs.length < 2 ^ 32 → SetsTag mem s xs tag value len copy →
      xs.length < 2 ^ 31 ∧ TaggedBefore s tag xs) := by
  obtain ⟨tv₀, hnew⟩ := Option.isSome_iff_exists.mp hnew
  constructor
  · rintro ⟨hlen, hbefore⟩
    obtain ⟨i, hi, hall⟩ := hbefore
    obtain ⟨s', a, hrun, h', ha, -, hkeep⟩ := listSetTaggedValue_present h hlen hnew hi
    have hget := (listGetTaggedValue_replaced h hlen hi h' ha (newTagged_tag hnew) hkeep).mpr
      ⟨i, hi, hall⟩
    refine ⟨s', _, a, hrun, ?_, ?_, ha.trans hnew.symm, hkeep, hget⟩
    · rw [hi]
      exact h'
    · rw [hi]
      rfl
  · intro hlen₃₂ hsets
    obtain ⟨s₁, a, hcreate, hlist, ha, -, hkeep, h₁⟩ := createTagged_spec h hnew
    have hlen : xs.length < 2 ^ 31 := by
      by_contra hge
      have hrounds : s₁.rounds = 0 := by
        rw [rounds, h₁.listCount_eq, cInt, Int.bmod_def]
        omega
      refine not_setsTag_of_scan hcreate ha ?_ h₁ rfl hsets
      rw [hrounds]
      rfl
    refine ⟨hlen, ?_⟩
    cases hi : firstTagged s tag xs with
    | none =>
        have hpass : ∀ x ∈ xs, PassesOver (setTest tag) s₁.tagged x := by
          intro x hx b hb
          have hnot := List.findIdx?_eq_none_iff.mp hi x hx
          rw [hkeep b (hb ▸ hx)]
          exact passesOver_setTest h hx hnot b hb
        obtain ⟨s₂, hscan, h₂, htagged⟩ := scan_none h₁ hlen hpass
        exact absurd hsets (not_setsTag_of_scan hcreate ha hscan h₂ htagged)
    | some i =>
        obtain ⟨s', b, hrun, h', hb, -, hkeep'⟩ := listSetTaggedValue_present h hlen hnew hi
        refine (listGetTaggedValue_replaced h hlen hi h' hb (newTagged_tag hnew) hkeep').mp ?_
        obtain ⟨t, old, c, hrun', hholds, -, -, -, hget⟩ := hsets
        rw [hrun] at hrun'
        cases hrun'
        rw [hi] at hholds
        obtain ⟨ps, hrep⟩ := h'.represents
        obtain ⟨qs, hrep'⟩ := hholds.represents
        have hsame := (hrep.unique hrep').2
        have hat := congrArg (fun l => l[i]?) hsame
        have hilt : i < xs.length := (List.findIdx?_eq_some_iff_getElem.mp hi).1
        simp only [Option.elim_some, List.getElem?_set_self hilt, Option.some.injEq] at hat
        rw [hat]
        exact hget

/-- A new list of tagged values. -/
def create : TaggedList V := ⟨LinkedList.listCreate, Heap.empty⟩

theorem holds_create : Holds (create : TaggedList V) [] where
  represents := ⟨[], LinkedList.represents_listCreate⟩
  live := fun _ ha => absurd ha List.not_mem_nil

/-- The memory of a caller that passes texts. -/
def textMemory (text : List UInt8) : List UInt8 := text ++ [0]

/-- A tagged value can be created and pushed. -/
theorem Holds.exists_pushed (h : Holds s xs) {mem : V → List UInt8} {value : Option V} {len : ℕ}
    {copy : Bool} {tv : TaggedValue V} (hnew : newTagged mem tag value len copy = some tv) :
    ∃ (s' : TaggedList V) (a : Addr), Holds s' (xs ++ [some a]) ∧ s'.tagged a = some tv ∧
      ∀ b, some b ∈ xs → s'.tagged b = s.tagged b := by
  obtain ⟨s₁, a, -, -, ha, -, hkeep, h₁⟩ := createTagged_spec h hnew
  obtain ⟨ps, hrep⟩ := h₁.represents
  obtain ⟨l, ps', -, hrep'⟩ := hrep.listPushValue_eq (some a)
  refine ⟨{ s₁ with list := l }, a, ⟨⟨ps', hrep'⟩, fun b hb => ?_⟩, ha, hkeep⟩
  rcases List.mem_append.mp hb with hb | hb
  · exact h₁.live b hb
  · cases List.mem_singleton.mp hb
    exact Option.isSome_iff_exists.mpr ⟨tv, ha⟩

/-- The second of two values has the tag that is set, and the first one has another tag. -/
theorem setsTag_iff_taggedBefore_two :
    ∃ (s : TaggedList (List UInt8)) (a b : Addr), Holds s [some a, some b] ∧
      s.tagged a = some ⟨some [1], some (.copied [7, 0]), 1⟩ ∧
      s.tagged b = some ⟨some [2], some (.copied [8, 0]), 1⟩ ∧
      SetsTag textMemory s [some a, some b] [2] (some [9]) 1 true := by
  obtain ⟨s₁, a, h₁, ha, -⟩ :=
    holds_create.exists_pushed (rfl : newTagged textMemory [1] (some [7]) 1 true = some _)
  obtain ⟨s, b, h, hb, hkeep⟩ :=
    h₁.exists_pushed (rfl : newTagged textMemory [2] (some [8]) 1 true = some _)
  have ha' : s.tagged a = some ⟨some [1], some (.copied [7, 0]), 1⟩ :=
    (hkeep a List.mem_cons_self).trans ha
  have hholds : Holds s [some a, some b] := h
  have hfirst : firstTagged s [2] [some a, some b] = some 1 := by
    simp [firstTagged, List.findIdx?_cons, HasTag, ha', hb]
  have hbefore : TaggedBefore s [2] [some a, some b] := by
    refine ⟨1, hfirst, fun j hj x hx => ?_⟩
    obtain rfl : j = 0 := Nat.lt_one_iff.mp hj
    cases hx
    rw [ha']
    rfl
  have hlen : [some a, some b].length < 2 ^ 31 := by
    rw [List.length_cons, List.length_cons, List.length_nil]
    decide
  exact ⟨s, a, b, hholds, ha', hb, (setsTag_iff_taggedBefore textMemory s _ hholds [2] (some [9]) 1
    true (by decide)).1 ⟨hlen, hbefore⟩⟩

/-- Setting a tag in an empty list leaves the list with a pointer to a value that has been
destroyed, which looking for the tag then reads. -/
theorem new_tag_dangles :
    ¬ SetsTag textMemory (create : TaggedList (List UInt8)) [] [1] (some [7]) 1 true ∧
      (listSetTaggedValue textMemory (create : TaggedList (List UInt8)) [1] (some [7]) 1
        true).map (fun r => (r.2, r.1.list.listCount, (r.1.tagged 0).isSome)) =
          some (none, 1, false) ∧
      ((listSetTaggedValue textMemory (create : TaggedList (List UInt8)) [1] (some [7]) 1
        true).bind fun r => (listGetTaggedValue r.1 [1]).map Prod.snd) = none := by
  refine ⟨?_, by decide, by decide +kernel⟩
  rintro ⟨s', old, a, hrun, -, -, -, -, s'', hget⟩
  have hnone : ((listSetTaggedValue textMemory (create : TaggedList (List UInt8)) [1] (some [7])
      1 true).bind fun r => (listGetTaggedValue r.1 [1]).map Prod.snd) = none := by
    decide
  rw [hrun, Option.bind_some, hget] at hnone
  cases hnone

end TaggedList
end LibHL
