import LibHL.HashTable.Runs
import Mathlib.Algebra.Order.Group.Multiset
import Mathlib.Tactic.Abel

/-!
# Who owns the stored pointers

A ledger records, from the arguments and the answers of the calls, which pointers
were stored, which were handed out through `prev_data`, and which a callback of
`ht_call` took over by removing or overwriting them.  With a free callback set,
the pointers stored so far are at any time those still in the table, those passed
to the callback, and those handed out or taken.
-/

namespace LibHL
namespace HashTable

variable {t t' : HashTable} {key : Key}

/-! ## The ledger -/

/-- The pointer that a call stores, if it is not null. -/
def storedBy (t t' : HashTable) : Op → Out → Option Data
  | .set _ data _, .set r => if r.ret = 0 then data else none
  | .setIfNotExists _ data _, .set r => if r.ret = 0 then data else none
  | .getOrSet _ data _ _ _, .set r => if r.ret = 0 then data else none
  | .getAndSet _ data _ _ _, .set r => if r.ret = 0 then data else none
  | .setCopy _ data dlen _ _, .set _ =>
      -- The copy is the block allocated by the call, if it allocated one.
      if t'.brk = t.brk then none else some ⟨t.brk, (readBytes data dlen).getD []⟩
  | .setIfEquals _ data _ _ _ _ _, .set r => if r.ret = 0 then data else none
  | .call key cb, _ =>
      match t.foundItem key with
      | none => none
      | some it =>
          if (cb it.data it.dlen).1 = 1 ∨ (cb it.data it.dlen).2.1 = it.data then none
          else (cb it.data it.dlen).2.1
  | _, _ => none

/-- The pointer that a call which returned 0 hands out through `prev_data`. -/
def handedBy : Op → Out → Option Data
  | .getAndSet .., .set r => if r.ret = 0 then r.prevData.join else none
  | .setCopy .., .set r => if r.ret = 0 then r.prevData.join else none
  | .setIfEquals .., .set r => if r.ret = 0 then r.prevData.join else none
  | .unset .., .set r => if r.ret = 0 then r.prevData.join else none
  | .delete .., .set r => if r.ret = 0 then r.prevData.join else none
  | _, _ => none

/-- The pointer that a callback of `ht_call` removes from the table or overwrites. -/
def takenBy (t : HashTable) : Op → Option Data
  | .call key cb =>
      match t.foundItem key with
      | none => none
      | some it =>
          if (cb it.data it.dlen).1 = 1 ∨ (cb it.data it.dlen).2.1 ≠ it.data then it.data
          else none
  | _ => none

/-- The pointer, as a bag. -/
def ptr (d : Option Data) : Multiset Data := (d.toList : Multiset Data)

/-- The pointers that items hold. -/
def pointers (its : List HtItem) : Multiset Data := (its.filterMap HtItem.data : Multiset Data)

/-- The pointers passed to the free callback. -/
def freed (released : List (Option Data)) : Multiset Data := (released.filterMap id : Multiset Data)

/-- What a run did with the pointers. -/
structure Ledger where
  stored : Multiset Data
  handed : Multiset Data
  taken : Multiset Data

/-- The ledger of a run, call by call. -/
def ledger : HashTable → List Op → Ledger
  | _, [] => ⟨0, 0, 0⟩
  | t, op :: ops =>
      match step t op with
      | none => ⟨0, 0, 0⟩
      | some (t', o) =>
          let rest := ledger t' ops
          ⟨ptr (storedBy t t' op o) + rest.stored, ptr (handedBy op o) + rest.handed,
            ptr (takenBy t op) + rest.taken⟩

@[simp] theorem ptr_none : ptr none = 0 := rfl

@[simp] theorem pointers_cons (it : HtItem) (its : List HtItem) :
    pointers (it :: its) = ptr it.data + pointers its := by
  cases hd : it.data <;> simp [pointers, ptr, hd]

theorem pointers_append (xs ys : List HtItem) :
    pointers (xs ++ ys) = pointers xs + pointers ys := by
  simp [pointers]

theorem pointers_perm {xs ys : List HtItem} (h : xs.Perm ys) : pointers xs = pointers ys :=
  Multiset.coe_eq_coe.mpr (h.filterMap HtItem.data)

theorem freed_append (xs ys : List (Option Data)) : freed (xs ++ ys) = freed xs + freed ys := by
  simp [freed]

@[simp] theorem freed_singleton (d : Option Data) : freed [d] = ptr d := by
  cases d <;> rfl

theorem freed_map_data (its : List HtItem) : freed (its.map HtItem.data) = pointers its := by
  simp [freed, pointers, List.filterMap_map]

/-! ## One call -/

/-- The books of a call: what was there and what it stores is there afterwards, was
freed, or left with the caller. -/
def Balanced (t t' : HashTable) (stores leaves : Option Data) : Prop :=
  pointers (stored t'.toBuckets) + freed t'.released + ptr leaves =
    pointers (stored t.toBuckets) + freed t.released + ptr stores

theorem Balanced.refl (t : HashTable) : Balanced t t none none := rfl

theorem freed_releases (hcb : t.freeItemCb = true) (prevData : Bool) (prev : Option Data) :
    freed (t.releases prevData prev) + ptr (writeOut prevData prev).join = ptr prev := by
  cases prevData <;> cases prev <;> simp [releases, hcb, writeOut, freed, ptr]

/-- What the setter stores. -/
def setStores (t t' : HashTable) (data : Option Data) (dlen : ℕ) (copy : Bool)
    (r : SetResult) : Option Data :=
  if copy then
    if t'.brk = t.brk then none else some ⟨t.brk, (readBytes data dlen).getD []⟩
  else if r.ret = 0 then data else none

theorem copyData_eq_some {brk n : ℕ} {data st : Option Data} {dlen : ℕ}
    (h : copyData brk data dlen = some (n, st)) :
    n = brk + 1 ∧ st = some ⟨brk, (readBytes data dlen).getD []⟩ := by
  obtain ⟨bytes, hbytes, heq⟩ := Option.bind_eq_some_iff.mp h
  cases heq
  rw [hbytes]
  exact ⟨rfl, rfl⟩

theorem htSetInternal_balanced (h : TableInv t) (hcb : t.freeItemCb = true)
    {data : Option Data} {dlen : ℕ} {prevData prevLen copy inx : Bool} {r : SetResult}
    (hrun : t.htSetInternal key data dlen prevData prevLen copy inx = some (t', r)) :
    Balanced t t' (setStores t t' data dlen copy r)
      (if r.ret = 0 then r.prevData.join else none) := by
  obtain ⟨-, -, hnothing | ⟨st, hst, hrel, hret, hprev, hperm, -⟩ |
    ⟨it, rest, st, -, -, hst, hrel, hret, hprev, hperm, hperm'⟩⟩ := htSetInternal_outcomes h hrun
  · obtain ⟨hstored, hbrk, hrel, hret⟩ := hnothing
    have hnone : setStores t t' data dlen copy r = none := by
      simp [setStores, hbrk, hret]
    rw [Balanced, hstored, hrel, hnone, if_neg hret]
  · have hstores : setStores t t' data dlen copy r = st := by
      rw [setStores, if_pos hret]
      cases copy with
      | false =>
          simp only [newItemData, Bool.false_eq_true, if_false] at hst ⊢
          exact (Prod.mk.inj (Option.some.inj hst)).2
      | true =>
          by_cases hlen : dlen ≠ 0
          · rw [newItemData, if_pos rfl, if_pos hlen] at hst
            obtain ⟨hbrk, rfl⟩ := copyData_eq_some hst
            rw [if_pos rfl, if_neg (by omega)]
          · rw [newItemData, if_pos rfl, if_neg hlen] at hst
            obtain ⟨hbrk, rfl⟩ := Prod.mk.inj (Option.some.inj hst)
            rw [if_pos rfl, if_pos hbrk.symm]
    have hjoin : r.prevData.join = none := by
      rw [hprev]
      cases prevData <;> rfl
    rw [Balanced, hstores, if_pos hret, hjoin, pointers_perm hperm, pointers_cons, hrel]
    simp only [freshItem, ptr_none]
    abel
  · have hstores : setStores t t' data dlen copy r = st := by
      rw [setStores, if_pos hret]
      cases copy with
      | false =>
          simp only [updatedItemData, Bool.false_eq_true, if_false] at hst ⊢
          exact (Prod.mk.inj (Option.some.inj hst)).2
      | true =>
          obtain ⟨hbrk, rfl⟩ := copyData_eq_some hst
          rw [if_pos rfl, if_neg (by omega)]
    rw [Balanced, hstores, if_pos hret, hprev, pointers_perm hperm, pointers_perm hperm',
      pointers_cons, pointers_cons, hrel, freed_append,
      ← freed_releases hcb prevData it.data]
    abel

/-- A setter without `prev_data`, or one that keeps the value it finds, hands nothing
out when it returns 0. -/
theorem htSetInternal_keeps_prev (h : TableInv t) {data : Option Data} {dlen : ℕ}
    {prevData prevLen copy inx : Bool} {r : SetResult}
    (hrun : t.htSetInternal key data dlen prevData prevLen copy inx = some (t', r))
    (hkeep : prevData = false ∨ inx = true) :
    (if r.ret = 0 then r.prevData.join else none) = none := by
  obtain ⟨-, -, ⟨-, -, -, hret⟩ | ⟨st, -, -, hret, hprev, -⟩ |
    ⟨it, rest, st, -, hinx, -, -, hret, hprev, -⟩⟩ := htSetInternal_outcomes h hrun
  · rw [if_neg hret]
  · rw [if_pos hret, hprev]
    cases prevData <;> rfl
  · have hprevData : prevData = false := by
      refine hkeep.resolve_right ?_
      rw [hinx]
      exact Bool.false_ne_true
    rw [if_pos hret, hprev, hprevData]
    rfl

/-- A call on a key that calls nothing back changes nothing; else the books depend on
what the callback leaves. -/
theorem htCallInternal_balanced {ρ : Type} (h : TableInv t) {cb : PairCallback ρ} {ret : ℤ}
    {out : Option ρ} (hrun : t.htCallInternal key cb = some (t', ret, out)) :
    (t.foundItem key = none ∧ t' = t ∧ ret = -1 ∧ out = none) ∨
    ∃ it r, t.foundItem key = some it ∧ cb t it.data it.dlen = some r ∧
      ret = (if r.ret = 1 then 0 else r.ret) ∧ out = some r.out ∧ t'.released = r.released ∧
      pointers (stored t'.toBuckets) + ptr it.data =
        pointers (stored t.toBuckets) + if r.ret = 1 then 0 else ptr r.data := by
  by_cases habs : Absent key (stored t.toBuckets)
  · rw [htCallInternal_absent h habs] at hrun
    cases hrun
    exact Or.inl ⟨foundItem_absent h habs, rfl, rfl, rfl⟩
  · obtain ⟨it, hfound⟩ := foundItem_present h habs
    obtain ⟨rest, -, hperm, hnone, hsome⟩ := htCallInternal_found h hfound cb
    cases hcb : cb t it.data it.dlen with
    | none =>
        rw [hnone hcb] at hrun
        cases hrun
    | some r =>
        obtain ⟨t₁, hrun₁, -, -, hrel, -, hperm'⟩ := hsome r hcb
        rw [hrun₁] at hrun
        cases hrun
        refine Or.inr ⟨it, r, hfound, hcb, rfl, rfl, hrel, ?_⟩
        rw [pointers_perm hperm, pointers_perm hperm', pointers_cons]
        by_cases hret : r.ret = 1
        · rw [if_pos hret, if_pos hret]
          abel
        · rw [if_neg hret, if_neg hret, pointers_cons]
          abel

theorem htGetHelper_eq_some {copy wantLen : Bool}
    {copyCb : Option (Option Data → ℕ → Option Data)} {value : Option Data} {vlen : ℕ}
    {r : CallResult (Option Data × Option ℕ)}
    (h : htGetHelper copy copyCb wantLen t value vlen = some r) :
    r.ret = 0 ∧ r.data = value ∧ r.released = t.released := by
  cases copy with
  | false =>
      cases h
      exact ⟨rfl, rfl, rfl⟩
  | true =>
      cases copyCb with
      | some cb =>
          cases h
          exact ⟨rfl, rfl, rfl⟩
      | none =>
          obtain ⟨p, -, hp⟩ := Option.bind_eq_some_iff.mp h
          cases hp
          exact ⟨rfl, rfl, rfl⟩

theorem htGetInternal_balanced (h : TableInv t) {wantLen copy : Bool}
    {copyCb : Option (Option Data → ℕ → Option Data)} {d : Option Data} {n : Option ℕ}
    (hrun : t.htGetInternal key wantLen copy copyCb = some (t', d, n)) :
    Balanced t t' none none := by
  obtain ⟨ret, out, hcall⟩ := htGetInternal_eq_some hrun
  rcases htCallInternal_balanced h hcall with ⟨-, rfl, -⟩ | ⟨it, r, -, hcb, -, -, hrel, hptr⟩
  · exact Balanced.refl t'
  · obtain ⟨hret, hdata, hreleased⟩ := htGetHelper_eq_some hcb
    rw [if_neg (by omega), hdata] at hptr
    rw [Balanced, hrel, hreleased, add_right_cancel hptr]

theorem htDeleteInternal_balanced (h : TableInv t) (hcb : t.freeItemCb = true)
    {unset prevData prevLen : Bool} {matchData : Option Data} {matchSize : ℕ} {r : SetResult}
    (hrun : t.htDeleteInternal key unset prevData prevLen matchData matchSize = some (t', r)) :
    Balanced t t' none (if r.ret = 0 then r.prevData.join else none) := by
  obtain ⟨⟨t₁, ret, out⟩, hcall, hrest⟩ := Option.bind_eq_some_iff.mp hrun
  cases hrest
  rcases htCallInternal_balanced h hcall with
    ⟨-, rfl, rfl, rfl⟩ | ⟨it, r, -, hhelp, rfl, rfl, hrel, hptr⟩
  · exact Balanced.refl _
  obtain ⟨refuse, -, hhelp⟩ := Option.bind_eq_some_iff.mp hhelp
  cases refuse with
  | true =>
      cases hhelp
      have hptr' : pointers (stored t'.toBuckets) + ptr it.data =
          pointers (stored t.toBuckets) + ptr it.data := hptr
      rw [Balanced, hrel, add_right_cancel hptr']
      rfl
  | false =>
      -- The value is freed or handed out, and the item loses it or goes.
      have hfreed : freed r.released + ptr (writeOut prevData it.data).join =
          freed t.released + ptr it.data := by
        have hr : r.released = (if prevData then t else t.callFreeItemCb it.data).released := by
          cases unset <;> cases hhelp <;> rfl
        rw [hr]
        cases prevData with
        | true =>
            simp only [if_true, writeOut]
            rfl
        | false =>
            simp [callFreeItemCb, hcb, freed_append, writeOut]
      have hgone : (if r.ret = 1 then 0 else ptr r.data) = 0 := by
        cases unset <;> cases hhelp <;> rfl
      have hret : (if r.ret = 1 then 0 else r.ret) = 0 := by
        cases unset <;> cases hhelp <;> rfl
      have hout : r.out.1 = writeOut prevData it.data := by
        cases unset <;> cases hhelp <;> rfl
      have hprev : (Option.map Prod.fst (some r.out)).join.join =
          (writeOut prevData it.data).join := by
        rw [Option.map_some, hout]
        rfl
      rw [hgone, add_zero] at hptr
      rw [Balanced, if_pos hret, hprev, hrel, ← hptr, add_assoc, hfreed]
      simp only [ptr_none]
      abel

theorem htDeleteInternal_keeps_prev (h : TableInv t) {unset prevLen : Bool}
    {matchData : Option Data} {matchSize : ℕ} {r : SetResult}
    (hrun : t.htDeleteInternal key unset false prevLen matchData matchSize = some (t', r)) :
    r.prevData.join = none := by
  obtain ⟨⟨t₁, ret, out⟩, hcall, hrest⟩ := Option.bind_eq_some_iff.mp hrun
  cases hrest
  rcases htCallInternal_balanced h hcall with
    ⟨-, rfl, rfl, rfl⟩ | ⟨it, r, -, hhelp, rfl, rfl, hrel, hptr⟩
  · rfl
  · obtain ⟨refuse, -, hhelp⟩ := Option.bind_eq_some_iff.mp hhelp
    cases refuse <;> cases unset <;> cases hhelp <;> rfl

theorem htSetIfEquals_balanced (h : TableInv t) (hcb : t.freeItemCb = true)
    {data : Option Data} {dlen : ℕ} {matchData : Option Data} {matchSize : ℕ}
    {prevData prevLen : Bool} {r : SetResult}
    (hrun : t.htSetIfEquals key data dlen matchData matchSize prevData prevLen =
      some (t', r)) :
    Balanced t t' (if r.ret = 0 then data else none)
      (if r.ret = 0 then r.prevData.join else none) := by
  by_cases hnull : matchData = none ∧ matchSize = 0
  · rw [htSetIfEquals, if_pos hnull] at hrun
    exact htSetInternal_balanced h hcb hrun
  · rw [htSetIfEquals, if_neg hnull] at hrun
    obtain ⟨⟨t₁, ret, out⟩, hcall, hrest⟩ := Option.bind_eq_some_iff.mp hrun
    rcases htCallInternal_balanced h hcall with
      ⟨-, rfl, rfl, rfl⟩ | ⟨it, c, -, hhelp, rfl, rfl, hrel, hptr⟩
    · cases hrest
      exact Balanced.refl _
    obtain ⟨matched, -, hhelp⟩ := Option.bind_eq_some_iff.mp hhelp
    cases matched with
    | false =>
        cases hhelp
        cases hrest
        have hptr' : pointers (stored t'.toBuckets) + ptr it.data =
            pointers (stored t.toBuckets) + ptr it.data := hptr
        rw [Balanced, hrel, add_right_cancel hptr']
        rfl
    | true =>
        cases hhelp
        cases hrest
        have hptr' : pointers (stored t'.toBuckets) + ptr it.data =
            pointers (stored t.toBuckets) + ptr data := hptr
        have hfreed : freed t'.released + ptr (writeOut prevData it.data).join =
            freed t.released + ptr it.data := by
          rw [hrel]
          cases prevData with
          | true => rfl
          | false => simp [callFreeItemCb, hcb, freed_append, writeOut]
        simp only [Balanced, if_true]
        refine add_right_cancel (b := ptr it.data) ?_
        calc pointers (stored t'.toBuckets) + freed t'.released +
                ptr (writeOut prevData it.data).join + ptr it.data
            = (pointers (stored t'.toBuckets) + ptr it.data) +
                (freed t'.released + ptr (writeOut prevData it.data).join) := by abel
          _ = (pointers (stored t.toBuckets) + ptr data) +
                (freed t.released + ptr it.data) := by rw [hptr', hfreed]
          _ = pointers (stored t.toBuckets) + freed t.released + ptr data +
                ptr it.data := by abel

theorem htCall_balanced (h : TableInv t) {cb : Option Data → ℕ → ℤ × Option Data × ℕ} {ret : ℤ}
    (hrun : t.htCall key cb = some (t', ret)) (o : Out) :
    Balanced t t' (storedBy t t' (.call key cb) o) (takenBy t (.call key cb)) := by
  obtain ⟨⟨t₁, ret₁, out⟩, hcall, hrest⟩ := Option.bind_eq_some_iff.mp hrun
  cases hrest
  rcases htCallInternal_balanced h hcall with
    ⟨hfound, rfl, -⟩ | ⟨it, r, hfound, hhelp, -, -, hrel, hptr⟩
  · simp only [storedBy, takenBy, hfound]
    exact Balanced.refl _
  · cases hhelp
    simp only [storedBy, takenBy, hfound]
    simp only at hptr hrel
    by_cases hret : (cb it.data it.dlen).1 = 1
    · rw [if_pos hret, add_zero] at hptr
      rw [Balanced, hrel, if_pos (Or.inl hret), if_pos (Or.inl hret), ← hptr, ptr_none]
      abel
    · rw [if_neg hret] at hptr
      by_cases hsame : (cb it.data it.dlen).2.1 = it.data
      · rw [hsame] at hptr
        have hboth : ¬ ((cb it.data it.dlen).1 = 1 ∨ (cb it.data it.dlen).2.1 ≠ it.data) :=
          not_or.mpr ⟨hret, not_not.mpr hsame⟩
        rw [Balanced, hrel, if_pos (Or.inr hsame), if_neg hboth, add_right_cancel hptr]
      · rw [Balanced, hrel, if_neg (not_or.mpr ⟨hret, hsame⟩), if_pos (Or.inr hsame),
          add_right_comm, hptr]
        abel

/-- A call that hands nothing over to a callback of `ht_call`. -/
theorem Balanced.books {d e : Option Data} (h : Balanced t t' d e) :
    pointers (stored t'.toBuckets) + freed t'.released + (ptr e + ptr none) =
      pointers (stored t.toBuckets) + freed t.released + ptr d := by
  rw [ptr_none, add_zero]
  exact h

theorem htClear_balanced (h : TableInv t) (hcb : t.freeItemCb = true)
    (hrun : t.htClear = some t') : Balanced t t' none none := by
  obtain ⟨t₁, hrun₁, -, -, -, hstored, hrel⟩ := htClear_eq h
  rw [hrun₁] at hrun
  cases hrun
  rw [Balanced, hstored, hrel, freed_append, releasedItems, if_pos hcb, freed_map_data]
  simp only [pointers, List.filterMap_nil, Multiset.coe_nil]
  abel

theorem htForeachPair_balanced (h : TableInv t) (hcb : t.freeItemCb = true) {cb : PairIterator}
    {visits : List Visit} (hrun : t.htForeachPair cb = some (t', visits)) :
    Balanced t t' none none := by
  obtain ⟨t₁, hrun₁, -, -, -, hrel, hstored⟩ := htForeachPair_eq h cb
  rw [hrun₁] at hrun
  cases hrun
  rw [Balanced, hstored, hrel, freed_append, releasedItems, if_pos hcb, freed_map_data,
    pointers_perm (foreachItems_perm cb (stored t.toBuckets) []), pointers_append]
  abel

/-- Every call keeps the books, as long as the free callback is set. -/
theorem step_balanced {op : Op} {o : Out} (h : TableInv t) (hcb : t.freeItemCb = true)
    (hstep : step t op = some (t', o)) :
    pointers (stored t'.toBuckets) + freed t'.released +
        (ptr (handedBy op o) + ptr (takenBy t op)) =
      pointers (stored t.toBuckets) + freed t.released + ptr (storedBy t t' op o) := by
  have hset : ∀ {key data dlen prevData prevLen inx r}, prevData = false ∨ inx = true →
      t.htSetInternal key data dlen prevData prevLen false inx = some (t', r) →
      Balanced t t' (if r.ret = 0 then data else none) none := by
    intro key data dlen prevData prevLen inx r hkeep hrun
    have hbal := htSetInternal_balanced h hcb hrun
    rwa [htSetInternal_keeps_prev h hrun hkeep] at hbal
  cases op with
  | set key data dlen | setIfNotExists key data dlen =>
      obtain ⟨⟨t₁, r⟩, hrun, heq⟩ := Option.map_eq_some_iff.mp hstep
      cases heq
      exact (hset (Or.inl rfl) hrun).books
  | getOrSet key data dlen curData curLen =>
      obtain ⟨⟨t₁, r⟩, hrun, heq⟩ := Option.map_eq_some_iff.mp hstep
      cases heq
      exact (hset (Or.inr rfl) hrun).books
  | getAndSet key data dlen prevData prevLen | setCopy key data dlen prevData prevLen =>
      obtain ⟨⟨t₁, r⟩, hrun, heq⟩ := Option.map_eq_some_iff.mp hstep
      cases heq
      exact (htSetInternal_balanced h hcb hrun).books
  | setIfEquals key data dlen matchData matchSize prevData prevLen =>
      obtain ⟨⟨t₁, r⟩, hrun, heq⟩ := Option.map_eq_some_iff.mp hstep
      cases heq
      exact (htSetIfEquals_balanced h hcb hrun).books
  | get key wantLen | getCopy key wantLen | getDeepCopy key wantLen copyCb =>
      obtain ⟨⟨t₁, d, n⟩, hrun, heq⟩ := Option.map_eq_some_iff.mp hstep
      cases heq
      exact (htGetInternal_balanced h hrun).books
  | «exists» key | callNone key | getAllKeys | getAllValues =>
      obtain ⟨b, -, heq⟩ := Option.map_eq_some_iff.mp hstep
      cases heq
      exact (Balanced.refl _).books
  | call key cb =>
      obtain ⟨⟨t₁, ret⟩, hrun, heq⟩ := Option.map_eq_some_iff.mp hstep
      cases heq
      have hbal := htCall_balanced h hrun (.code ret)
      change _ + (ptr none + _) = _
      rw [ptr_none, zero_add]
      exact hbal
  | unset key prevData prevLen | delete key prevData prevLen =>
      obtain ⟨⟨t₁, r⟩, hrun, heq⟩ := Option.map_eq_some_iff.mp hstep
      cases heq
      exact (htDeleteInternal_balanced h hcb hrun).books
  | deleteIfEquals key matchData matchSize =>
      obtain ⟨⟨t₁, r⟩, hrun, heq⟩ := Option.map_eq_some_iff.mp hstep
      cases heq
      have hbal := htDeleteInternal_balanced h hcb hrun
      rw [htDeleteInternal_keeps_prev h hrun, ite_self] at hbal
      exact hbal.books
  | clear =>
      obtain ⟨t₁, hrun, heq⟩ := Option.map_eq_some_iff.mp hstep
      cases heq
      exact (htClear_balanced h hcb hrun).books
  | foreachPair cb | foreachKey cb | foreachValue cb =>
      obtain ⟨⟨t₁, vs⟩, hrun, heq⟩ := Option.map_eq_some_iff.mp hstep
      cases heq
      exact (htForeachPair_balanced h hcb hrun).books
  | count | setFreeItemCallback cb =>
      cases hstep
      exact (Balanced.refl _).books

/-! ## Runs -/

theorem step_freeItemCb {op : Op} {o : Out} (h : TableInv t) (hcb : t.freeItemCb = true)
    (hop : op ≠ .setFreeItemCallback false) (hstep : step t op = some (t', o)) :
    t'.freeItemCb = true := by
  have hset : ∀ {key data dlen prevData prevLen copy inx r},
      t.htSetInternal key data dlen prevData prevLen copy inx = some (t', r) →
      t'.freeItemCb = true :=
    fun hrun => (htSetInternal_cases h hrun).2.1.freeItemCb.trans hcb
  have hcall : ∀ {ρ : Type} {key : Key} {cb : PairCallback ρ} {ret out},
      t.htCallInternal key cb = some (t', ret, out) → t'.freeItemCb = true :=
    fun hrun => (htCallInternal_cases h hrun).2.1.freeItemCb.trans hcb
  have hsweep : ∀ {cb visits}, t.htForeachPair cb = some (t', visits) →
      t'.freeItemCb = true := by
    intro cb visits hrun
    obtain ⟨t₁, hrun₁, -, hs, -⟩ := htForeachPair_eq h cb
    rw [hrun₁] at hrun
    cases hrun
    exact hs.freeItemCb.trans hcb
  cases op with
  | set key data dlen | setIfNotExists key data dlen | getOrSet key data dlen curData curLen
  | getAndSet key data dlen prevData prevLen | setCopy key data dlen prevData prevLen =>
      obtain ⟨⟨t₁, r⟩, hrun, heq⟩ := Option.map_eq_some_iff.mp hstep
      cases heq
      exact hset hrun
  | setIfEquals key data dlen matchData matchSize prevData prevLen =>
      obtain ⟨⟨t₁, r⟩, hrun, heq⟩ := Option.map_eq_some_iff.mp hstep
      cases heq
      rcases htSetIfEquals_eq_some hrun with ⟨-, -, hrun⟩ | ⟨ret, out, hrun⟩
      · exact hset hrun
      · exact hcall hrun
  | get key wantLen | getCopy key wantLen | getDeepCopy key wantLen copyCb =>
      obtain ⟨⟨t₁, d, n⟩, hrun, heq⟩ := Option.map_eq_some_iff.mp hstep
      cases heq
      obtain ⟨ret, out, hrun⟩ := htGetInternal_eq_some hrun
      exact hcall hrun
  | «exists» key | callNone key | getAllKeys | getAllValues =>
      obtain ⟨b, -, heq⟩ := Option.map_eq_some_iff.mp hstep
      cases heq
      exact hcb
  | call key cb =>
      obtain ⟨⟨t₁, ret⟩, hrun, heq⟩ := Option.map_eq_some_iff.mp hstep
      cases heq
      obtain ⟨cb', out, hrun⟩ := htCall_eq_some hrun
      exact hcall hrun
  | unset key prevData prevLen | delete key prevData prevLen
  | deleteIfEquals key matchData matchSize =>
      obtain ⟨⟨t₁, r⟩, hrun, heq⟩ := Option.map_eq_some_iff.mp hstep
      cases heq
      obtain ⟨ret, out, hrun⟩ := htDeleteInternal_eq_some hrun
      exact hcall hrun
  | clear =>
      obtain ⟨t₁, hrun, heq⟩ := Option.map_eq_some_iff.mp hstep
      cases heq
      obtain ⟨t₂, hrun₂, -, hs, -⟩ := htClear_eq h
      rw [hrun₂] at hrun
      cases hrun
      exact hs.freeItemCb.trans hcb
  | foreachPair cb | foreachKey cb | foreachValue cb =>
      obtain ⟨⟨t₁, vs⟩, hrun, heq⟩ := Option.map_eq_some_iff.mp hstep
      cases heq
      exact hsweep hrun
  | count =>
      cases hstep
      exact hcb
  | setFreeItemCallback b =>
      cases hstep
      cases b with
      | false => exact absurd rfl hop
      | true => rfl

/-- The books of a whole run. -/
theorem run_balanced :
    ∀ (ops : List Op) {t t' : HashTable} {outs : List Out}, TableInv t → t.freeItemCb = true →
      (∀ op ∈ ops, op ≠ .setFreeItemCallback false) → runSteps step t ops = some (t', outs) →
      TableInv t' ∧ t'.freeItemCb = true ∧
      pointers (stored t'.toBuckets) + freed t'.released +
          ((ledger t ops).handed + (ledger t ops).taken) =
        pointers (stored t.toBuckets) + freed t.released + (ledger t ops).stored := by
  intro ops
  induction ops with
  | nil =>
      intro t t' outs h hcb _ hrun
      cases hrun
      exact ⟨h, hcb, rfl⟩
  | cons op ops ih =>
      intro t t' outs h hcb hops hrun
      obtain ⟨t₁, o, outs', hstep, hrest, -⟩ := runSteps_cons_eq_some hrun
      have hop : op ≠ .setFreeItemCallback false := hops op List.mem_cons_self
      obtain ⟨h', hcb', hbal⟩ := ih (step_inv h hstep).1 (step_freeItemCb h hcb hop hstep)
        (fun x hx => hops x (List.mem_cons_of_mem op hx)) hrest
      refine ⟨h', hcb', ?_⟩
      have hstepbal := step_balanced h hcb hstep
      simp only [ledger, hstep]
      calc pointers (stored t'.toBuckets) + freed t'.released +
            (ptr (handedBy op o) + (ledger t₁ ops).handed +
              (ptr (takenBy t op) + (ledger t₁ ops).taken))
          = (pointers (stored t'.toBuckets) + freed t'.released +
              ((ledger t₁ ops).handed + (ledger t₁ ops).taken)) +
              (ptr (handedBy op o) + ptr (takenBy t op)) := by abel
        _ = (pointers (stored t₁.toBuckets) + freed t₁.released +
              (ptr (handedBy op o) + ptr (takenBy t op))) + (ledger t₁ ops).stored := by
            rw [hbal]
            abel
        _ = pointers (stored t.toBuckets) + freed t.released +
              (ptr (storedBy t t₁ op o) + (ledger t₁ ops).stored) := by
            rw [hstepbal]
            abel

theorem count_freed (released : List (Option Data)) (d : Data) :
    (freed released).count d = released.count (some d) := by
  induction released with
  | nil => rfl
  | cons r rs ih =>
      rw [show r :: rs = [r] ++ rs from rfl, freed_append, Multiset.count_add, ih,
        List.count_append, freed_singleton]
      congr 1
      cases r with
      | none => simp [ptr]
      | some e =>
          by_cases hde : d = e
          · simp [ptr, hde]
          · simp [ptr, hde, Ne.symm hde]

/-- In every run in which the stored pointers are distinct and the free callback is
set, no pointer in the table has been freed, handed out or taken; and once the table
is destroyed, every pointer that was ever stored has been freed once, or handed out
once, or taken once by a callback of `ht_call`. -/
theorem run_accounts_pointers {initialSize maxSize : ℕ} {seed : UInt32} {t₀ t : HashTable}
    (hcreate : htCreate initialSize maxSize true seed = some t₀) {ops : List Op}
    (hops : ∀ op ∈ ops, op ≠ .setFreeItemCallback false) {outs : List Out}
    (hrun : runSteps step t₀ ops = some (t, outs))
    (hdistinct : (ledger t₀ ops).stored.Nodup) :
    (∀ it ∈ storedItems t.toBuckets, ∀ d, it.data = some d → some d ∉ t.released ∧
      d ∉ (ledger t₀ ops).handed ∧ d ∉ (ledger t₀ ops).taken) ∧
    ∃ t', t.htDestroy = some t' ∧ ∀ d ∈ (ledger t₀ ops).stored,
      t'.released.count (some d) + (ledger t₀ ops).handed.count d +
        (ledger t₀ ops).taken.count d = 1 := by
  obtain ⟨h₀, hstored₀, -, -, -⟩ := htCreate_eq hcreate
  have hinit : t₀.freeItemCb = true ∧ t₀.released = [] := by
    simp only [htCreate] at hcreate
    by_cases hfits : callocFits (if htSizeMin < initialSize then initialSize else htSizeMin)
    · rw [if_pos hfits] at hcreate
      cases hcreate
      exact ⟨rfl, rfl⟩
    · rw [if_neg hfits] at hcreate
      cases hcreate
  obtain ⟨h, hcb, hbal⟩ := run_balanced ops h₀ hinit.1 hops hrun
  rw [hstored₀, hinit.2] at hbal
  have hbooks : pointers (stored t.toBuckets) + freed t.released +
      ((ledger t₀ ops).handed + (ledger t₀ ops).taken) = (ledger t₀ ops).stored := by
    rw [hbal]
    exact zero_add _
  have hcount : ∀ d, (pointers (stored t.toBuckets)).count d + (freed t.released).count d +
      ((ledger t₀ ops).handed.count d + (ledger t₀ ops).taken.count d) =
        (ledger t₀ ops).stored.count d := by
    intro d
    rw [← hbooks, Multiset.count_add, Multiset.count_add, Multiset.count_add]
  refine ⟨?_, ?_⟩
  · intro it hit d hd
    have hmem : d ∈ pointers (stored t.toBuckets) := by
      have hit' := h.buckets.storedItems_perm.mem_iff.mp hit
      exact Multiset.mem_coe.mpr (List.mem_filterMap.mpr ⟨it, hit', hd⟩)
    have hone := Multiset.one_le_count_iff_mem.mpr hmem
    have hle := Multiset.nodup_iff_count_le_one.mp hdistinct d
    have hsum := hcount d
    refine ⟨?_, ?_, ?_⟩
    · rw [← List.count_eq_zero, ← count_freed]
      omega
    · rw [← Multiset.count_eq_zero]
      omega
    · rw [← Multiset.count_eq_zero]
      omega
  · obtain ⟨t', hclear, -, -, -, -, hrel⟩ := htClear_eq h
    refine ⟨t', hclear, ?_⟩
    intro d hd
    have hfreed : freed t'.released = freed t.released + pointers (stored t.toBuckets) := by
      rw [hrel, freed_append, releasedItems, if_pos hcb, freed_map_data]
    have hone := Multiset.count_eq_one_of_mem hdistinct hd
    have hsum := hcount d
    rw [← count_freed, hfreed, Multiset.count_add]
    omega

/-- A run that stores pointers in several ways and lets them go in several ways. -/
def ownershipRun : List Op :=
  [.set [1] (some ⟨10, [7]⟩) 1, .getAndSet [1] (some ⟨11, [8]⟩) 1 true false,
    .setCopy [2] (some ⟨12, [9]⟩) 1 false false, .setIfEquals [1] (some ⟨13, [5]⟩) 1
      (some ⟨14, [8]⟩) 1 false false, .unset [1] false false, .set [1] (some ⟨15, [4]⟩) 1,
    .call [2] (fun v n => (1, v, n)),
    .foreachPair fun visits => if visits.length = 1 then htIteratorRemove else 1]

theorem run_accounts_pointers_ownershipRun :
    ∃ t₀ t outs, htCreate 0 0 true 5 = some t₀ ∧
      runSteps step t₀ ownershipRun = some (t, outs) ∧ (ledger t₀ ownershipRun).stored.Nodup ∧
      ∃ t', t.htDestroy = some t' ∧ ∀ d ∈ (ledger t₀ ownershipRun).stored,
        t'.released.count (some d) + (ledger t₀ ownershipRun).handed.count d +
          (ledger t₀ ownershipRun).taken.count d = 1 := by
  have hcreate : (htCreate 0 0 true 5).isSome := by decide
  obtain ⟨t₀, ht₀⟩ := Option.isSome_iff_exists.mp hcreate
  have hrun : ((htCreate 0 0 true 5).bind fun t => runSteps step t ownershipRun).isSome := by
    decide
  have hnodup : (htCreate 0 0 true 5).all
      (fun t => decide (ledger t ownershipRun).stored.Nodup) = true := by
    decide
  rw [ht₀] at hrun hnodup
  obtain ⟨⟨t, outs⟩, ht⟩ := Option.isSome_iff_exists.mp hrun
  have hdistinct : (ledger t₀ ownershipRun).stored.Nodup := of_decide_eq_true hnodup
  have hops : ∀ op ∈ ownershipRun, op ≠ .setFreeItemCallback false := by
    simp [ownershipRun]
  exact ⟨t₀, t, outs, ht₀, ht, hdistinct, (run_accounts_pointers ht₀ hops ht hdistinct).2⟩

/-- A callback of `ht_call` that removes the item. -/
def callRemovesRun : List Op :=
  [.set [1] (some ⟨10, [7]⟩) 1, .call [1] fun v n => (1, v, n)]

/-- The pointer removed through `ht_call` is neither freed nor handed out. -/
theorem callRemovesRun_loses_pointer :
    ¬ ∀ (initialSize maxSize : ℕ) (seed : UInt32) (t₀ t : HashTable) (ops : List Op)
      (outs : List Out), htCreate initialSize maxSize true seed = some t₀ →
      (∀ op ∈ ops, op ≠ .setFreeItemCallback false) →
      runSteps step t₀ ops = some (t, outs) → (ledger t₀ ops).stored.Nodup →
      ∃ t', t.htDestroy = some t' ∧ ∀ d ∈ (ledger t₀ ops).stored,
        t'.released.count (some d) + (ledger t₀ ops).handed.count d = 1 := by
  intro hall
  have hcreate : (htCreate 0 0 true 5).isSome := by decide
  obtain ⟨t₀, ht₀⟩ := Option.isSome_iff_exists.mp hcreate
  have hrun : ((htCreate 0 0 true 5).bind fun t => runSteps step t callRemovesRun).isSome := by
    decide
  have hledger : (htCreate 0 0 true 5).all (fun t =>
      decide ((ledger t callRemovesRun).stored = {⟨10, [7]⟩} ∧
        (ledger t callRemovesRun).handed = 0)) = true := by
    decide
  have hfreed : ((htCreate 0 0 true 5).bind fun t => (runSteps step t callRemovesRun).bind
      fun r => r.1.htDestroy.map fun t' => t'.released) = some [] := by
    decide
  rw [ht₀] at hrun hledger hfreed
  obtain ⟨⟨t, outs⟩, ht⟩ := Option.isSome_iff_exists.mp hrun
  obtain ⟨hstored, hhanded⟩ := of_decide_eq_true hledger
  obtain ⟨t', hdestroy, hone⟩ := hall 0 0 5 t₀ t callRemovesRun outs ht₀
    (by simp [callRemovesRun]) ht (by rw [hstored]; exact Multiset.nodup_singleton _)
  have hd := hone ⟨10, [7]⟩ (by rw [hstored]; exact Multiset.mem_singleton_self _)
  have hnone : t'.released = [] := by
    rw [Option.bind_some] at ht
    simpa [ht, hdestroy] using hfreed
  rw [hnone, hhanded] at hd
  simp at hd

end HashTable
end LibHL
