import LibHL.HashTable.Runs

/-!
# One item per key

`ht_set_internal` takes a key for absent when the item it finds carries a null
data pointer, and then appends a second item.  A run whose setters never meet
such an item keeps the keys of the stored items distinct; a run that sets a key
again after `ht_unset` does not.
-/

namespace LibHL
namespace HashTable

variable {t t' : HashTable} {key : Key}

/-- No two stored items share a key. -/
def UniqueKeys (t : HashTable) : Prop :=
  ((stored t.toBuckets).map HtItem.key).Nodup

/-- A setter meets no stored item with its key and a null data pointer. -/
def MeetsNoNull (t : HashTable) (op : Op) : Prop :=
  match op.setKey with
  | some key => ∀ it ∈ storedItems t.toBuckets, it.key = key → it.data ≠ none
  | none => True

instance (t : HashTable) (op : Op) : Decidable (MeetsNoNull t op) :=
  match h : op.setKey with
  | some key =>
      decidable_of_iff
        (∀ it ∈ storedItems t.toBuckets, it.key = key → it.data ≠ none)
        (by simp [MeetsNoNull, h])
  | none => isTrue (by simp [MeetsNoNull, h])

/-- In a table with distinct keys, splitting off an item leaves no other item
with its key. -/
theorem UniqueKeys.split (h : UniqueKeys t) {it : HtItem} {rest : List HtItem}
    (hperm : (stored t.toBuckets).Perm (it :: rest)) :
    Absent it.key rest ∧ (rest.map HtItem.key).Nodup := by
  have hnd : ((it :: rest).map HtItem.key).Nodup := (hperm.map HtItem.key).nodup_iff.mp h
  rw [List.map_cons, List.nodup_cons] at hnd
  refine ⟨?_, hnd.2⟩
  intro x hx hkey
  exact hnd.1 (List.mem_map.mpr ⟨x, hx, hkey⟩)

theorem uniqueKeys_of_perm {its : List HtItem}
    (hperm : (stored t.toBuckets).Perm its) (h : (its.map HtItem.key).Nodup) :
    UniqueKeys t :=
  (hperm.map HtItem.key).nodup_iff.mpr h

theorem nodup_keys_cons {it : HtItem} {rest : List HtItem} (habs : Absent it.key rest)
    (h : (rest.map HtItem.key).Nodup) : ((it :: rest).map HtItem.key).Nodup := by
  rw [List.map_cons, List.nodup_cons]
  refine ⟨?_, h⟩
  intro hmem
  obtain ⟨x, hx, hkey⟩ := List.mem_map.mp hmem
  exact habs x hx hkey

theorem htCallInternal_uniqueKeys {ρ : Type} (hinv : TableInv t) (h : UniqueKeys t)
    {cb : PairCallback ρ} {ret : ℤ} {out : Option ρ}
    (hrun : t.htCallInternal key cb = some (t', ret, out)) : UniqueKeys t' := by
  obtain ⟨-, -, hsame | ⟨it, rest, hperm, hrest⟩⟩ := htCallInternal_cases hinv hrun
  · unfold UniqueKeys
    rwa [hsame]
  · obtain ⟨habs, hnd⟩ := h.split hperm
    rcases hrest with hrest | ⟨d, n, hrest⟩
    · exact uniqueKeys_of_perm hrest hnd
    · exact uniqueKeys_of_perm hrest (nodup_keys_cons habs hnd)

/-- A setter that meets no null item keeps keys distinct. -/
theorem htSetInternal_uniqueKeys (hinv : TableInv t) (h : UniqueKeys t)
    (hnonull : ∀ it ∈ stored t.toBuckets, it.key = key → it.data ≠ none)
    {data : Option Data} {dlen : ℕ} {prevData prevLen copy inx : Bool} {r : SetResult}
    (hrun : t.htSetInternal key data dlen prevData prevLen copy inx = some (t', r)) :
    UniqueKeys t' := by
  obtain ⟨-, -, hsame | ⟨st, hperm, hnull⟩ | ⟨it, rest, st, -, hperm, hperm'⟩⟩ :=
    htSetInternal_cases hinv hrun
  · unfold UniqueKeys
    rwa [hsame]
  · have habs : Absent key (stored t.toBuckets) := by
      intro it hit hkey
      obtain ⟨it', hit', hkey', hdata⟩ := hnull it hit hkey
      exact hnonull it' hit' hkey' hdata
    exact uniqueKeys_of_perm hperm (nodup_keys_cons habs h)
  · obtain ⟨habs, hnd⟩ := h.split hperm
    exact uniqueKeys_of_perm hperm' (nodup_keys_cons habs hnd)

theorem step_uniqueKeys {op : Op} {o : Out} (hinv : TableInv t) (h : UniqueKeys t)
    (hmeet : MeetsNoNull t op) (hstep : step t op = some (t', o)) : UniqueKeys t' := by
  cases step_effect hstep with
  | setInternal key data dlen prevData prevLen copy inx r hkey hrun =>
      refine htSetInternal_uniqueKeys hinv h ?_ hrun
      intro it hit
      rw [MeetsNoNull, hkey] at hmeet
      exact hmeet it (hinv.buckets.storedItems_perm.mem_iff.mpr hit)
  | callInternal ρ key cb ret out hrun =>
      exact htCallInternal_uniqueKeys hinv h hrun
  | clear hrun =>
      obtain ⟨t₁, hrun₁, -, -, -, hstored, -⟩ := htClear_eq hinv
      rw [hrun₁] at hrun
      cases hrun
      unfold UniqueKeys
      rw [hstored]
      exact List.nodup_nil
  | foreachPair cb visits hrun =>
      obtain ⟨t₁, hrun₁, -, -, -, -, hstored⟩ := htForeachPair_eq hinv cb
      rw [hrun₁] at hrun
      cases hrun
      have hperm := foreachItems_perm cb (stored t.toBuckets) []
      have hnd : _ := (hperm.map HtItem.key).nodup_iff.mp h
      rw [List.map_append] at hnd
      unfold UniqueKeys
      rw [hstored]
      exact hnd.of_append_right
  | untouched cb heq =>
      subst heq
      exact h

/-- What `ht_get` finds in a table with distinct keys. -/
theorem htGet_of_perm (hinv : TableInv t) {it : HtItem} {rest : List HtItem}
    (hperm : (stored t.toBuckets).Perm (it :: rest)) (hk : it.key = key)
    (habs : Absent key rest) (wantLen : Bool) :
    ∃ t', t.htGet key wantLen = some (t', it.data, writeOut wantLen it.dlen) := by
  subst hk
  have hpres : ¬ Absent it.key (stored t.toBuckets) :=
    fun hnone => hnone it (hperm.mem_iff.mpr (by simp)) rfl
  obtain ⟨it', rest', hkey, hperm', -, hsome⟩ :=
    htCallInternal_present hinv hpres (htGetHelper false none wantLen)
  obtain ⟨rfl, -⟩ := perm_cons_unique hperm hperm' hkey habs
  obtain ⟨t', hrun, -⟩ := hsome _ rfl
  refine ⟨t', ?_⟩
  simp [htGet, htGetInternal, hrun]

/-- In every run whose setters meet no stored item with their key and a null
data pointer, the stored keys stay distinct; and such a setter makes its value
the one `ht_get` returns, whatever was done to the key before. -/
theorem run_uniqueKeys {initialSize maxSize : ℕ} {cb : Bool} {seed : UInt32}
    {t₀ : HashTable} (hcreate : htCreate initialSize maxSize cb seed = some t₀)
    {ops : List Op} (hmeet : StepsMeet step MeetsNoNull t₀ ops)
    {outs : List Out} (hrun : runSteps step t₀ ops = some (t, outs)) :
    ((storedItems t.toBuckets).map HtItem.key).Nodup ∧
    ∀ key v dlen, key ≠ [] → MeetsNoNull t (.set key (some v) dlen) →
      ∃ t' r, t.htSet key (some v) dlen = some (t', r) ∧ r.ret = 0 ∧
        ∀ wantLen, ∃ t'', t'.htGet key wantLen =
          some (t'', some v, writeOut wantLen dlen) := by
  obtain ⟨hinv₀, hempty, -⟩ := htCreate_eq hcreate
  have hunique₀ : UniqueKeys t₀ := by
    unfold UniqueKeys
    rw [hempty]
    exact List.nodup_nil
  have hstep : ∀ s op s' o, TableInv s ∧ UniqueKeys s → MeetsNoNull s op →
      step s op = some (s', o) → TableInv s' ∧ UniqueKeys s' := by
    rintro s op s' o ⟨hs, hu⟩ hok hstep
    exact ⟨(step_inv hs hstep).1, step_uniqueKeys hs hu hok hstep⟩
  obtain ⟨hinv, hunique⟩ :=
    invariant_of_runSteps hstep ops t₀ t outs ⟨hinv₀, hunique₀⟩ hmeet hrun
  refine ⟨(hinv.buckets.storedItems_perm.map HtItem.key).nodup_iff.mpr hunique, ?_⟩
  intro key v dlen hkey hnonull
  by_cases habs : Absent key (stored t.toBuckets)
  · have hnew : newItemData t.brk (some v) dlen false = some (t.brk, some v) := rfl
    obtain ⟨t', hset, hinv', -, -, -, hperm⟩ :=
      htSetInternal_absent hinv hkey habs hnew false false false
    exact ⟨t', _, hset, rfl, htGet_of_perm hinv' hperm rfl habs⟩
  · obtain ⟨it, rest, rfl, hperm, hset⟩ :=
      htSetInternal_present hinv hkey habs (some v) dlen false false false
    have hdata : it.data ≠ none := by
      refine hnonull it ?_ rfl
      exact hinv.buckets.storedItems_perm.mem_iff.mpr (hperm.mem_iff.mpr (by simp))
    obtain ⟨t', hrun', hinv', -, -, -, hperm'⟩ := (hset hdata).2 t.brk (some v) rfl
    exact ⟨t', _, hrun', rfl, htGet_of_perm hinv' hperm' rfl (hunique.split hperm).1⟩

/-- A run that unsets one key and sets another. -/
def uniqueRun : List Op :=
  [.set [1] (some ⟨10, [7]⟩) 1, .unset [1] false false, .set [2] (some ⟨11, [8]⟩) 1,
    .set [2] (some ⟨12, [9]⟩) 1, .delete [1] false false, .set [1] none 3]

theorem run_uniqueKeys_uniqueRun :
    ∃ t₀ t outs, htCreate 0 0 true 5 = some t₀ ∧
      StepsMeet step MeetsNoNull t₀ uniqueRun ∧
      runSteps step t₀ uniqueRun = some (t, outs) ∧
      ((storedItems t.toBuckets).map HtItem.key).Nodup := by
  have hcreate : (htCreate 0 0 true 5).isSome := by decide
  obtain ⟨t₀, ht₀⟩ := Option.isSome_iff_exists.mp hcreate
  have hrun : ∀ t ∈ htCreate 0 0 true 5, (runSteps step t uniqueRun).isSome ∧
      StepsMeet step MeetsNoNull t uniqueRun := by
    decide
  obtain ⟨hsome, hmeet⟩ := hrun t₀ ht₀
  obtain ⟨⟨t, outs⟩, ht⟩ := Option.isSome_iff_exists.mp hsome
  exact ⟨t₀, t, outs, ht₀, hmeet, ht, (run_uniqueKeys ht₀ hmeet ht).1⟩

/-- Setting a key again after `ht_unset`. -/
def unsetRun : List Op :=
  [.set [1] (some ⟨10, [7]⟩) 1, .unset [1] false false, .set [1] (some ⟨11, [8]⟩) 1,
    .get [1] false]

/-- The second `ht_set` returns 0, yet the table then holds two items with the
key and `ht_get` returns the null pointer of the first. -/
theorem unsetRun_duplicates :
    ∃ t₀ t outs, htCreate 0 0 false 0 = some t₀ ∧
      runSteps step t₀ unsetRun = some (t, outs) ∧
      outs[2]? = some (.set ⟨0, none, none⟩) ∧
      outs[3]? = some (.value none none) ∧
      (storedItems t.toBuckets).map HtItem.key = [[1], [1]] := by
  have hcreate : (htCreate 0 0 false 0).isSome := by decide
  obtain ⟨t₀, ht₀⟩ := Option.isSome_iff_exists.mp hcreate
  have hrun : ((htCreate 0 0 false 0).bind fun t => runSteps step t unsetRun).map
      (fun r => (r.2, (storedItems r.1.toBuckets).map HtItem.key)) =
      some ([.set ⟨0, none, none⟩, .set ⟨0, none, none⟩, .set ⟨0, none, none⟩,
        .value none none], [[1], [1]]) := by
    decide
  rw [ht₀] at hrun
  obtain ⟨⟨t, outs⟩, ht, heq⟩ := Option.map_eq_some_iff.mp hrun
  obtain ⟨rfl, hkeys⟩ := Prod.mk.inj heq
  exact ⟨t₀, t, _, ht₀, ht, rfl, rfl, hkeys⟩

end HashTable
end LibHL
