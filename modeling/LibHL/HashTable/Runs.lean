import LibHL.HashTable.Iteration
import LibHL.Support.Run

/-!
# Runs of the public operations

Every sequence of public calls keeps the bucket array, the iterator list and
the item count in step, and the table within its size cap.  The iterators and
the collecting functions then enumerate each stored item once.
-/

namespace LibHL
namespace HashTable

/-- A call of the public interface. -/
inductive Op where
  | set (key : Key) (data : Option Data) (dlen : ℕ)
  | setIfNotExists (key : Key) (data : Option Data) (dlen : ℕ)
  | getOrSet (key : Key) (data : Option Data) (dlen : ℕ) (curData curLen : Bool)
  | getAndSet (key : Key) (data : Option Data) (dlen : ℕ) (prevData prevLen : Bool)
  | setCopy (key : Key) (data : Option Data) (dlen : ℕ) (prevData prevLen : Bool)
  | setIfEquals (key : Key) (data : Option Data) (dlen : ℕ) (matchData : Option Data)
      (matchSize : ℕ) (prevData prevLen : Bool)
  | get (key : Key) (wantLen : Bool)
  | getCopy (key : Key) (wantLen : Bool)
  | getDeepCopy (key : Key) (wantLen : Bool)
      (copyCb : Option (Option Data → ℕ → Option Data))
  | exists (key : Key)
  | call (key : Key) (cb : Option Data → ℕ → ℤ × Option Data × ℕ)
  | callNone (key : Key)
  | unset (key : Key) (prevData prevLen : Bool)
  | delete (key : Key) (prevData prevLen : Bool)
  | deleteIfEquals (key : Key) (matchData : Option Data) (matchSize : ℕ)
  | clear
  | foreachPair (cb : PairIterator)
  | foreachKey (cb : List Key → ℤ)
  | foreachValue (cb : List (Option Data × ℕ) → ℤ)
  | getAllKeys
  | getAllValues
  | count
  | setFreeItemCallback (cb : Bool)

/-- What a call returns to the caller. -/
inductive Out where
  | set (r : SetResult)
  | value (data : Option Data) (len : Option ℕ)
  | found (b : Bool)
  | code (ret : ℤ)
  | visits (vs : List Visit)
  | keys (ks : List (Key × ℕ))
  | count (n : ℕ)
  | done
  deriving DecidableEq

/-- Perform a call. -/
def step (t : HashTable) : Op → Option (HashTable × Out)
  | .set key data dlen => (t.htSet key data dlen).map fun r => (r.1, .set r.2)
  | .setIfNotExists key data dlen =>
      (t.htSetIfNotExists key data dlen).map fun r => (r.1, .set r.2)
  | .getOrSet key data dlen curData curLen =>
      (t.htGetOrSet key data dlen curData curLen).map fun r => (r.1, .set r.2)
  | .getAndSet key data dlen prevData prevLen =>
      (t.htGetAndSet key data dlen prevData prevLen).map fun r => (r.1, .set r.2)
  | .setCopy key data dlen prevData prevLen =>
      (t.htSetCopy key data dlen prevData prevLen).map fun r => (r.1, .set r.2)
  | .setIfEquals key data dlen matchData matchSize prevData prevLen =>
      (t.htSetIfEquals key data dlen matchData matchSize prevData prevLen).map
        fun r => (r.1, .set r.2)
  | .get key wantLen =>
      (t.htGet key wantLen).map fun r => (r.1, .value r.2.1 r.2.2)
  | .getCopy key wantLen =>
      (t.htGetCopy key wantLen).map fun r => (r.1, .value r.2.1 r.2.2)
  | .getDeepCopy key wantLen copyCb =>
      (t.htGetDeepCopy key wantLen copyCb).map fun r => (r.1, .value r.2.1 r.2.2)
  | .exists key => (t.htExists key).map fun b => (t, .found b)
  | .call key cb => (t.htCall key cb).map fun r => (r.1, .code r.2)
  | .callNone key => (t.htCallNone key).map fun ret => (t, .code ret)
  | .unset key prevData prevLen =>
      (t.htUnset key prevData prevLen).map fun r => (r.1, .set r.2)
  | .delete key prevData prevLen =>
      (t.htDelete key prevData prevLen).map fun r => (r.1, .set r.2)
  | .deleteIfEquals key matchData matchSize =>
      (t.htDeleteIfEquals key matchData matchSize).map fun r => (r.1, .set r.2)
  | .clear => t.htClear.map fun t' => (t', .done)
  | .foreachPair cb => (t.htForeachPair cb).map fun r => (r.1, .visits r.2)
  | .foreachKey cb => (t.htForeachKey cb).map fun r => (r.1, .visits r.2)
  | .foreachValue cb => (t.htForeachValue cb).map fun r => (r.1, .visits r.2)
  | .getAllKeys => t.htGetAllKeys.map fun ks => (t, .keys ks)
  | .getAllValues => t.htGetAllValues.map fun vs => (t, .visits vs)
  | .count => some (t, .count t.htCount)
  | .setFreeItemCallback cb => some (t.htSetFreeItemCallback cb, .done)

/-! ## What one call can do -/

variable {t t' : HashTable}

theorem htGetInternal_eq_some {key : Key} {wantLen copy : Bool}
    {copyCb : Option (Option Data → ℕ → Option Data)} {d : Option Data} {n : Option ℕ}
    (h : t.htGetInternal key wantLen copy copyCb = some (t', d, n)) :
    ∃ ret out, t.htCallInternal key (htGetHelper copy copyCb wantLen) =
      some (t', ret, out) := by
  obtain ⟨⟨t₁, ret, out⟩, hcall, hrest⟩ := Option.bind_eq_some_iff.mp h
  cases hrest
  exact ⟨ret, out, hcall⟩

theorem htDeleteInternal_eq_some {key : Key} {unset prevData prevLen : Bool}
    {matchData : Option Data} {matchSize : ℕ} {r : SetResult}
    (h : t.htDeleteInternal key unset prevData prevLen matchData matchSize =
      some (t', r)) :
    ∃ ret out, t.htCallInternal key
      (htDeleteHelper unset prevData prevLen matchData matchSize) =
        some (t', ret, out) := by
  obtain ⟨⟨t₁, ret, out⟩, hcall, hrest⟩ := Option.bind_eq_some_iff.mp h
  cases hrest
  exact ⟨ret, out, hcall⟩

theorem htCall_eq_some {key : Key} {cb : Option Data → ℕ → ℤ × Option Data × ℕ}
    {ret : ℤ} (h : t.htCall key cb = some (t', ret)) :
    ∃ (cb' : PairCallback Unit) (out : Option Unit),
      t.htCallInternal key cb' = some (t', ret, out) := by
  obtain ⟨⟨t₁, ret₁, out⟩, hcall, hrest⟩ := Option.bind_eq_some_iff.mp h
  cases hrest
  exact ⟨_, out, hcall⟩

theorem htSetIfEquals_eq_some {key : Key} {data : Option Data} {dlen : ℕ}
    {matchData : Option Data} {matchSize : ℕ} {prevData prevLen : Bool} {r : SetResult}
    (h : t.htSetIfEquals key data dlen matchData matchSize prevData prevLen =
      some (t', r)) :
    (matchData = none ∧ matchSize = 0 ∧ t.htSetIfNotExists key data dlen = some (t', r)) ∨
    ∃ ret out, t.htCallInternal key
      (htSetIfEqualsHelper data dlen matchData matchSize prevData prevLen) =
        some (t', ret, out) := by
  by_cases hnull : matchData = none ∧ matchSize = 0
  · left
    rw [htSetIfEquals, if_pos hnull] at h
    exact ⟨hnull.1, hnull.2, h⟩
  · right
    rw [htSetIfEquals, if_neg hnull] at h
    obtain ⟨⟨t₁, ret, out⟩, hcall, hrest⟩ := Option.bind_eq_some_iff.mp h
    cases out with
    | none =>
        cases hrest
        exact ⟨ret, none, hcall⟩
    | some o =>
        by_cases hret : ret = 0
        · simp only [hret, if_true, Option.some.injEq, Prod.mk.injEq] at hrest
          rw [← hrest.1]
          exact ⟨ret, some o, hcall⟩
        · simp only [hret, if_false, Option.some.injEq, Prod.mk.injEq] at hrest
          rw [← hrest.1]
          exact ⟨ret, some o, hcall⟩

/-- The key under which a call may store a new item. -/
def Op.setKey : Op → Option Key
  | .set key _ _ => some key
  | .setIfNotExists key _ _ => some key
  | .getOrSet key _ _ _ _ => some key
  | .getAndSet key _ _ _ _ => some key
  | .setCopy key _ _ _ _ => some key
  | .setIfEquals key _ _ matchData matchSize _ _ =>
      if matchData = none ∧ matchSize = 0 then some key else none
  | _ => none

/-- What a call can do to the table: one of the two internal functions ran, the
whole table was cleared or swept, or no item was touched. -/
inductive Effect (t t' : HashTable) (op : Op) : Prop where
  | setInternal (key : Key) (data : Option Data) (dlen : ℕ)
      (prevData prevLen copy inx : Bool) (r : SetResult) (hkey : op.setKey = some key)
      (hrun : t.htSetInternal key data dlen prevData prevLen copy inx = some (t', r))
  | callInternal (ρ : Type) (key : Key) (cb : PairCallback ρ) (ret : ℤ)
      (out : Option ρ) (hrun : t.htCallInternal key cb = some (t', ret, out))
  | clear (hrun : t.htClear = some t')
  | foreachPair (cb : PairIterator) (visits : List Visit)
      (hrun : t.htForeachPair cb = some (t', visits))
  | untouched (cb : Bool) (heq : t' = { t with freeItemCb := cb })

theorem run_of_answered {β : Type} {x : Option (HashTable × β)} {answer : HashTable × β → Out}
    {o : Out} (h : (x.map fun r => (r.1, answer r)) = some (t', o)) : ∃ r, x = some (t', r) := by
  obtain ⟨⟨t₁, r⟩, hrun, heq⟩ := Option.map_eq_some_iff.mp h
  cases heq
  exact ⟨r, hrun⟩

theorem step_effect {op : Op} {o : Out} (h : step t op = some (t', o)) :
    Effect t t' op := by
  have hsame : Effect t t op := .untouched t.freeItemCb rfl
  cases op with
  | set key data dlen =>
      obtain ⟨r, hrun⟩ := run_of_answered h
      exact .setInternal _ _ _ _ _ _ _ r rfl hrun
  | setIfNotExists key data dlen =>
      obtain ⟨r, hrun⟩ := run_of_answered h
      exact .setInternal _ _ _ _ _ _ _ r rfl hrun
  | getOrSet key data dlen curData curLen =>
      obtain ⟨r, hrun⟩ := run_of_answered h
      exact .setInternal _ _ _ _ _ _ _ r rfl hrun
  | getAndSet key data dlen prevData prevLen =>
      obtain ⟨r, hrun⟩ := run_of_answered h
      exact .setInternal _ _ _ _ _ _ _ r rfl hrun
  | setCopy key data dlen prevData prevLen =>
      obtain ⟨r, hrun⟩ := run_of_answered h
      exact .setInternal _ _ _ _ _ _ _ r rfl hrun
  | setIfEquals key data dlen matchData matchSize prevData prevLen =>
      obtain ⟨r, hrun⟩ := run_of_answered h
      rcases htSetIfEquals_eq_some hrun with ⟨hm, hs, hset⟩ | ⟨ret, out, hcall⟩
      · exact .setInternal _ _ _ _ _ _ _ r (by simp [Op.setKey, hm, hs]) hset
      · exact .callInternal _ _ _ ret out hcall
  | get key wantLen =>
      obtain ⟨⟨d, n⟩, hrun⟩ := run_of_answered h
      obtain ⟨ret, out, hcall⟩ := htGetInternal_eq_some hrun
      exact .callInternal _ _ _ ret out hcall
  | getCopy key wantLen =>
      obtain ⟨⟨d, n⟩, hrun⟩ := run_of_answered h
      obtain ⟨ret, out, hcall⟩ := htGetInternal_eq_some hrun
      exact .callInternal _ _ _ ret out hcall
  | getDeepCopy key wantLen copyCb =>
      obtain ⟨⟨d, n⟩, hrun⟩ := run_of_answered h
      obtain ⟨ret, out, hcall⟩ := htGetInternal_eq_some hrun
      exact .callInternal _ _ _ ret out hcall
  | «exists» key =>
      obtain ⟨b, hrun, heq⟩ := Option.map_eq_some_iff.mp h
      cases heq
      exact hsame
  | call key cb =>
      obtain ⟨ret, hrun⟩ := run_of_answered h
      obtain ⟨cb', out, hcall⟩ := htCall_eq_some hrun
      exact .callInternal _ _ _ ret out hcall
  | callNone key =>
      obtain ⟨ret, hrun, heq⟩ := Option.map_eq_some_iff.mp h
      cases heq
      exact hsame
  | unset key prevData prevLen =>
      obtain ⟨r, hrun⟩ := run_of_answered h
      obtain ⟨ret, out, hcall⟩ := htDeleteInternal_eq_some hrun
      exact .callInternal _ _ _ ret out hcall
  | delete key prevData prevLen =>
      obtain ⟨r, hrun⟩ := run_of_answered h
      obtain ⟨ret, out, hcall⟩ := htDeleteInternal_eq_some hrun
      exact .callInternal _ _ _ ret out hcall
  | deleteIfEquals key matchData matchSize =>
      obtain ⟨r, hrun⟩ := run_of_answered h
      obtain ⟨ret, out, hcall⟩ := htDeleteInternal_eq_some hrun
      exact .callInternal _ _ _ ret out hcall
  | clear =>
      obtain ⟨t₁, hrun, heq⟩ := Option.map_eq_some_iff.mp h
      cases heq
      exact .clear hrun
  | foreachPair cb =>
      obtain ⟨vs, hrun⟩ := run_of_answered h
      exact .foreachPair cb vs hrun
  | foreachKey cb =>
      obtain ⟨vs, hrun⟩ := run_of_answered h
      exact .foreachPair _ vs hrun
  | foreachValue cb =>
      obtain ⟨vs, hrun⟩ := run_of_answered h
      exact .foreachPair _ vs hrun
  | getAllKeys =>
      obtain ⟨ks, hrun, heq⟩ := Option.map_eq_some_iff.mp h
      cases heq
      exact hsame
  | getAllValues =>
      obtain ⟨vs, hrun, heq⟩ := Option.map_eq_some_iff.mp h
      cases heq
      exact hsame
  | count =>
      cases h
      exact hsame
  | setFreeItemCallback cb =>
      cases h
      exact .untouched cb rfl

/-! ## The invariant over whole runs -/

/-- A call keeps the invariant, the cap and, within the cap, the size. -/
theorem step_inv {op : Op} {o : Out} (h : TableInv t) (hstep : step t op = some (t', o)) :
    TableInv t' ∧ t'.seed = t.seed ∧ t'.maxSize = t.maxSize ∧
      (t'.size = t.size ∨ t.maxSize = 0 ∨ t'.size ≤ t.maxSize) := by
  have hsucc : TableInv t' ∧ Successor t t' → TableInv t' ∧ t'.seed = t.seed ∧
      t'.maxSize = t.maxSize ∧
      (t'.size = t.size ∨ t.maxSize = 0 ∨ t'.size ≤ t.maxSize) := by
    rintro ⟨hinv, hs⟩
    exact ⟨hinv, hs.seed, hs.maxSize, hs.size⟩
  cases step_effect hstep with
  | setInternal key data dlen prevData prevLen copy inx r hkey hrun =>
      obtain ⟨hinv, hs, -⟩ := htSetInternal_cases h hrun
      exact hsucc ⟨hinv, hs⟩
  | callInternal ρ key cb ret out hrun =>
      obtain ⟨hinv, hs, -⟩ := htCallInternal_cases h hrun
      exact hsucc ⟨hinv, hs⟩
  | clear hrun =>
      obtain ⟨t₁, hrun₁, hinv, hs, -⟩ := htClear_eq h
      rw [hrun₁] at hrun
      cases hrun
      exact hsucc ⟨hinv, hs⟩
  | foreachPair cb visits hrun =>
      obtain ⟨t₁, hrun₁, hinv, hs, -⟩ := htForeachPair_eq h cb
      rw [hrun₁] at hrun
      cases hrun
      exact hsucc ⟨hinv, hs⟩
  | untouched cb heq =>
      subst heq
      exact ⟨⟨h.buckets, h.fits, h.count⟩, rfl, rfl, Or.inl rfl⟩

theorem htCreate_eq {initialSize maxSize : ℕ} {cb : Bool} {seed : UInt32}
    (h : htCreate initialSize maxSize cb seed = some t) :
    TableInv t ∧ stored t.toBuckets = [] ∧ t.maxSize = maxSize ∧ t.brk = 0 ∧
      t.seed = seed := by
  have hsize : 0 < if htSizeMin < initialSize then initialSize else htSizeMin := by
    unfold htSizeMin
    split
    · omega
    · omega
  simp only [htCreate] at h
  by_cases hfits : callocFits (if htSizeMin < initialSize then initialSize else htSizeMin)
  · rw [if_pos hfits] at h
    cases h
    exact ⟨⟨BucketsInv.replicate_none hsize _, hfits, rfl⟩, rfl, rfl, rfl, rfl⟩
  · rw [if_neg hfits] at h
    cases h

/-- A table with a cap never outgrows it, unless it was created larger. -/
structure Bounded (t₀ t : HashTable) : Prop where
  inv : TableInv t
  maxSize : t.maxSize = t₀.maxSize
  size : t₀.maxSize ≠ 0 → t.size ≤ max t₀.maxSize t₀.size

theorem step_bounded {t₀ : HashTable} {op : Op} {o : Out} (h : Bounded t₀ t)
    (hstep : step t op = some (t', o)) : Bounded t₀ t' := by
  obtain ⟨hinv, -, hmax, hsize⟩ := step_inv h.inv hstep
  refine ⟨hinv, hmax.trans h.maxSize, ?_⟩
  intro hcap
  rw [h.maxSize] at hsize
  rcases hsize with heq | hzero | hle
  · rw [heq]
    exact h.size hcap
  · exact absurd hzero hcap
  · exact Nat.le_trans hle (Nat.le_max_left _ _)

/-- After every run of public calls, items sit in the buckets of their hashes,
buckets record their slots, the iterator list registers exactly the buckets of
the array, the count is the number of items, and the size respects the cap.
The whole-table functions then enumerate each stored item once. -/
theorem run_consistent {initialSize maxSize : ℕ} {cb : Bool} {seed : UInt32}
    {t₀ : HashTable} (hcreate : htCreate initialSize maxSize cb seed = some t₀)
    {ops : List Op} {outs : List Out} (hrun : runSteps step t₀ ops = some (t, outs)) :
    (∀ i a, t.items[i]? = some (some a) →
      ∃ l, t.lists a = some l ∧ l.index = i ∧
        ∀ it ∈ l.head, it.hash.toNat % t.size = i) ∧
    t.items.length = t.size ∧
    (t.items.filterMap id).Perm t.iteratorList ∧ t.iteratorList.Nodup ∧
    t.count = (storedItems t.toBuckets).length ∧
    (maxSize ≠ 0 → t.size ≤ max maxSize t₀.size) ∧
    (∀ cont : PairIterator, (∀ visits, cont visits = htIteratorContinue) →
      ∃ t' visits, t.htForeachPair cont = some (t', visits) ∧
        visits.Perm ((storedItems t.toBuckets).map HtItem.visit)) ∧
    (∃ ks, t.htGetAllKeys = some ks ∧
      ks.Perm ((storedItems t.toBuckets).map fun it => (it.key, it.dlen))) ∧
    (∃ vs, t.htGetAllValues = some vs ∧
      vs.Perm ((storedItems t.toBuckets).map HtItem.visit)) := by
  obtain ⟨hinv₀, -, hmax₀, -⟩ := htCreate_eq hcreate
  have hbounded : Bounded t₀ t :=
    invariant_of_all_steps (fun _ _ _ _ hs hstep => step_bounded hs hstep) ops t₀ t outs
      ⟨hinv₀, rfl, fun _ => Nat.le_max_right _ _⟩ hrun
  have h := hbounded.inv
  have hperm := h.buckets.storedItems_perm
  refine ⟨?_, h.buckets.itemsLength, h.buckets.registered, h.buckets.nodup, ?_, ?_, ?_,
    ?_, ?_⟩
  · intro i a hi
    obtain ⟨l, hl, hidx, hplaced⟩ := h.buckets.bucket i a hi
    exact ⟨l, hl, hidx, fun it hit => (hplaced it hit).slot⟩
  · rw [hperm.length_eq]
    exact h.count
  · rw [← hmax₀]
    exact hbounded.size
  · intro cont hcont
    obtain ⟨t', hrun', -⟩ := htForeachPair_eq h cont
    rw [foreachItems_continue hcont] at hrun'
    exact ⟨t', _, hrun', (hperm.map HtItem.visit).symm⟩
  · refine ⟨_, by rw [htGetAllKeys, registeredItems_eq h]; rfl, ?_⟩
    exact (hperm.map _).symm
  · refine ⟨_, by rw [htGetAllValues, registeredItems_eq h]; rfl, ?_⟩
    exact (hperm.map _).symm

/-- A run over two keys in a table with a cap, through all kinds of effects. -/
def sampleRun : List Op :=
  [.set [1] (some ⟨10, [7]⟩) 1, .setCopy [2] (some ⟨11, [8, 9]⟩) 2 true false,
    .getAndSet [1] (some ⟨12, [5]⟩) 1 true true, .unset [2] false false, .get [1] true,
    .foreachPair fun visits => if visits.length = 1 then htIteratorRemove else 1,
    .count, .clear, .set [3] none 0, .getAllKeys]

theorem run_consistent_sampleRun :
    ∃ t₀ t outs, htCreate 0 200 true 5 = some t₀ ∧
      runSteps step t₀ sampleRun = some (t, outs) ∧
      (t.items.filterMap id).Perm t.iteratorList ∧
      t.count = (storedItems t.toBuckets).length ∧ t.size ≤ max 200 t₀.size := by
  have hcreate : (htCreate 0 200 true 5).isSome := by decide
  obtain ⟨t₀, ht₀⟩ := Option.isSome_iff_exists.mp hcreate
  have hrun : ((htCreate 0 200 true 5).bind fun t => runSteps step t sampleRun).isSome := by
    decide
  rw [ht₀] at hrun
  obtain ⟨⟨t, outs⟩, ht⟩ := Option.isSome_iff_exists.mp hrun
  obtain ⟨-, -, hreg, -, hcount, hsize, -⟩ := run_consistent ht₀ ht
  exact ⟨t₀, t, outs, ht₀, ht, hreg, hcount, hsize (by decide)⟩

end HashTable
end LibHL
