import LibHL.HashTable.Runs
import LibHL.HashTable.ScarceModel
import Mathlib.Data.Multiset.ZeroCons

/-!
# Setters that fail

A setter that runs out of memory reports -1.  On the way to a new item it has changed
nothing by then but an empty bucket; over an existing value it has stored the new length
already, and leaves it with the old value.
-/

namespace LibHL
namespace HashTable
namespace Scarce

open Allocating

variable {t t' : HashTable} {key : Key} {data : Option Data} {dlen : ℕ}
  {prevData prevLen copy inx : Bool} {r : SetResult} {g g' : Grants} {list : Addr}
  {hash : UInt32}

/-! ## If memory does not run out -/

section Granted

theorem moveItem_granted (newSize : ℕ) (b : Buckets) (item : HtItem) :
    Granted (moveItem newSize b item) (HashTable.moveItem newSize b item) := by
  refine (granted_lift _).bind ?_
  rintro (_ | list)
  · exact granted_request.bind_some (granted_lift _)
  · exact granted_lift _

theorem moveList_granted (newSize : ℕ) (b : Buckets) (list : Addr) :
    Granted (moveList newSize b list) (HashTable.moveList newSize b list) :=
  (granted_lift _).bind fun l => (Granted.foldlM (moveItem_granted newSize) l.head b).bind
    fun _ => (granted_lift _).bind fun _ => granted_pure _

theorem htGrowTable_granted (t : HashTable) : Granted (htGrowTable t) t.htGrowTable := by
  refine Granted.ite (granted_pure t) (Granted.of_request ?_)
  refine Granted.ite (Granted.of_request ?_) (granted_pure t)
  exact (Granted.foldlM (moveList_granted _) _ _).bind fun _ => granted_pure _

theorem finishSet_granted (t : HashTable) (prev : Option Data) (plen : ℕ)
    (prevData prevLen : Bool) : Granted (finishSet t prev plen prevData prevLen)
      (t.finishSet prev plen prevData prevLen) :=
  (Granted.ite (htGrowTable_granted t) (granted_pure t)).bind fun _ => granted_pure _

theorem newItem_granted (brk : ℕ) (hash : UInt32) (key : Key) (data : Option Data) (dlen : ℕ)
    (copy : Bool) : Granted (newItem brk hash key data dlen copy)
      ((newItemData brk data dlen copy).bind fun p => some (some (p.1, ⟨hash, key, p.2, dlen⟩))) :=
  Granted.of_request (Granted.of_requestIf (Granted.of_requestIf
    ((granted_lift _).bind fun _ => granted_pure _)))

theorem setInList_granted (t : HashTable) (list : Addr) (hash : UInt32) (key : Key)
    (data : Option Data) (dlen : ℕ) (prevData prevLen copy inx : Bool) :
    Granted (setInList t list hash key data dlen prevData prevLen copy inx)
      (t.setInList list hash key data dlen prevData prevLen copy inx) := by
  refine (granted_lift _).bind fun l => ?_
  dsimp only
  cases (l.head.find? fun it => htKeyEquals it.key key).bind HtItem.data with
  | none =>
      have hnew := newItem_granted t.brk hash key data dlen copy
      dsimp only
      cases hdata : newItemData t.brk data dlen copy with
      | none =>
          rw [hdata] at hnew
          exact hnew.bind_none
      | some p =>
          rw [hdata] at hnew
          exact hnew.bind_some ((granted_lift _).bind fun _ => finishSet_granted _ _ _ _ _)
  | some prev =>
      refine Granted.ite (granted_pure _) (Granted.of_requestIf ?_)
      exact (granted_lift _).bind fun _ => (granted_lift _).bind fun _ =>
        finishSet_granted _ _ _ _ _

theorem htSetList_granted (t : HashTable) (hash : UInt32) :
    Granted (htSetList t hash) ((t.htSetList hash).map some) :=
  Option.map_eq_bind ▸ Granted.of_request ((granted_lift _).bind fun _ => granted_pure _)

/-- If memory does not run out, the setters are those of the model where it never does. -/
theorem htSetInternal_granted (t : HashTable) (key : Key) (data : Option Data) (dlen : ℕ)
    (prevData prevLen copy inx : Bool) :
    Granted (htSetInternal t key data dlen prevData prevLen copy inx)
      (t.htSetInternal key data dlen prevData prevLen copy inx) := by
  refine Granted.ite (granted_pure _) ((granted_lift _).bind ?_)
  rintro (_ | list)
  · have hnew := htSetList_granted t (htHashOneAtATime t.seed key)
    dsimp only
    cases hlist : t.htSetList (htHashOneAtATime t.seed key) with
    | none =>
        rw [hlist] at hnew
        exact hnew.bind_none
    | some p =>
        rw [hlist] at hnew
        exact hnew.bind_some (setInList_granted _ _ _ _ _ _ _ _ _ _)
  · exact setInList_granted _ _ _ _ _ _ _ _ _ _

end Granted

/-! ## What a failed setter leaves -/

/-- The stored triples of key, data and length, and their number, are the same. -/
structure Unchanged (t t' : HashTable) : Prop where
  triples : ((stored t'.toBuckets).map HtItem.visit).Perm ((stored t.toBuckets).map HtItem.visit)
  count : t'.count = t.count

theorem Unchanged.refl (t : HashTable) : Unchanged t t := ⟨List.Perm.refl _, rfl⟩

/-- The value of the key has another length, and there is no memory for a copy of the new
one. -/
def CopyRefused (t : HashTable) (key : Key) (dlen : ℕ) (g : Grants) : Prop :=
  g 0 = false ∧ ∃ it, t.foundItem key = some it ∧ it.data ≠ none ∧ it.dlen ≠ dlen

section Failed

variable {a : Addr} {l : ItemsList} {it : HtItem} {prev : Data}

theorem finishSet_ret {prev : Option Data} {plen : ℕ}
    (hrun : finishSet t prev plen prevData prevLen g = some ((t', r), g')) : r.ret = 0 := by
  obtain ⟨t₁, g₁, -, hrun⟩ := bind_eq_some.mp hrun
  obtain ⟨heq, -⟩ := pure_eq_some.mp hrun
  cases heq
  rfl

theorem updateItem_of_found {its : List HtItem} {f f' : HtItem → HtItem}
    (hfind : its.find? (fun it => htKeyEquals it.key key) = some it) (hf : f it = f' it) :
    updateItem key f its = updateItem key f' its := by
  rcases findItem_cases key its with ⟨hnone, -⟩ | ⟨pre, it', post, rfl, habs, hkey, hfind'⟩
  · rw [hnone] at hfind
    cases hfind
  · rw [hfind'] at hfind
    cases hfind
    rw [updateItem_append habs hkey, updateItem_append habs hkey, hf]

/-- A copy over a value is refused: the length is the new one. -/
theorem setInList_refused (h : TableInv t)
    (hslot : t.htGetList (htHashOneAtATime t.seed key) = some (some a)) (hl : t.lists a = some l)
    (hfind : l.head.find? (fun it => htKeyEquals it.key key) = some it)
    (hprev : it.data = some prev) (hg : g 0 = false) (hash : UInt32) (data : Option Data)
    (dlen : ℕ) (prevData prevLen : Bool) :
    ∃ b rest, setInList t a hash key data dlen prevData prevLen true false g =
        some (({ t with toBuckets := b }, failed), fun n => g (n + 1)) ∧
      TableInv { t with toBuckets := b } ∧ (stored t.toBuckets).Perm (it :: rest) ∧
      (stored b).Perm ({ it with dlen := dlen } :: rest) := by
  obtain ⟨rest, -, hperm, -, hupd⟩ := h.bucket_of_found hslot hl hfind
  obtain ⟨b, hb, hinv, hperm'⟩ := hupd it.data dlen
  have hsame : updateItem key (fun x => { x with data := it.data, dlen := dlen }) l.head =
      updateItem key (fun x => { x with dlen := dlen }) l.head := updateItem_of_found hfind rfl
  rw [hsame] at hb
  refine ⟨b, rest, ?_, ⟨hinv, h.fits, ?_⟩, hperm, hperm'⟩
  · have hfound : (l.head.find? fun it => htKeyEquals it.key key).bind HtItem.data = some prev := by
      rw [hfind, Option.bind_some, hprev]
    have hread : (liftM (t.lists a) : Allocating ItemsList) g = some (l, g) := by
      rw [lift_apply, hl]
      rfl
    have hask : requestIf (true = true) g = some (false, fun n => g (n + 1)) := by
      rw [requestIf_pos rfl, request, hg]
    have hset : (liftM (setItems t.toBuckets a (updateItem key
        (fun it => { it with dlen := dlen }) l.head)) : Allocating Buckets) (fun n => g (n + 1)) =
          some (b, fun n => g (n + 1)) := by
      rw [lift_apply, hb]
      rfl
    unfold setInList
    rw [bind_of_eq_some hread]
    dsimp only
    rw [hfound]
    dsimp only
    rw [if_neg Bool.false_ne_true, bind_of_eq_some hask, if_neg Bool.false_ne_true,
      bind_of_eq_some hset]
    rfl
  · simp only [h.count, hperm.length_eq, hperm'.length_eq, List.length_cons]

/-- Without a value under the key, a setter that fails leaves the list. -/
theorem setInList_failed_new (hl : t.lists a = some l)
    (hfound : (l.head.find? fun it => htKeyEquals it.key key).bind HtItem.data = none)
    (h : setInList t a hash key data dlen prevData prevLen copy inx g = some ((t', r), g'))
    (hret : r.ret = -1) : t' = t := by
  unfold setInList at h
  obtain ⟨l', g₁, hread, h⟩ := bind_eq_some.mp h
  obtain ⟨hl', -⟩ := lift_eq_some.mp hread
  cases hl.symm.trans hl'
  dsimp only at h
  rw [hfound] at h
  dsimp only at h
  obtain ⟨o, g₂, -, h⟩ := bind_eq_some.mp h
  cases o with
  | none =>
      obtain ⟨heq, -⟩ := pure_eq_some.mp h
      cases heq
      rfl
  | some p =>
      obtain ⟨b, g₃, -, h⟩ := bind_eq_some.mp h
      rw [finishSet_ret h] at hret
      cases hret

/-- Over a value, only a copy can fail. -/
theorem setInList_failed_old (hl : t.lists a = some l)
    (hfound : (l.head.find? fun it => htKeyEquals it.key key).bind HtItem.data = some prev)
    (h : setInList t a hash key data dlen prevData prevLen copy inx g = some ((t', r), g'))
    (hret : r.ret = -1) : inx = false ∧ copy = true ∧ g 0 = false := by
  unfold setInList at h
  obtain ⟨l', g₁, hread, h⟩ := bind_eq_some.mp h
  obtain ⟨hl', rfl⟩ := lift_eq_some.mp hread
  cases hl.symm.trans hl'
  dsimp only at h
  rw [hfound] at h
  dsimp only at h
  cases inx with
  | true =>
      obtain ⟨heq, -⟩ := pure_eq_some.mp h
      cases heq
      cases hret
  | false =>
      rw [if_neg Bool.false_ne_true] at h
      obtain ⟨ok, g₂, hask, h⟩ := bind_eq_some.mp h
      cases ok with
      | false => exact ⟨rfl, requestIf_refused hask⟩
      | true =>
          rw [if_pos rfl] at h
          obtain ⟨p, g₃, -, h⟩ := bind_eq_some.mp h
          obtain ⟨b, g₄, -, h⟩ := bind_eq_some.mp h
          rw [finishSet_ret h] at hret
          cases hret

theorem htSetInternal_of_bucket (hkey : key ≠ [])
    (hslot : t.htGetList (htHashOneAtATime t.seed key) = some (some a)) :
    htSetInternal t key data dlen prevData prevLen copy inx g =
      setInList t a (htHashOneAtATime t.seed key) key data dlen prevData prevLen copy inx g := by
  have hlen : ¬ key.length = 0 := fun hlen => hkey (List.length_eq_zero_iff.mp hlen)
  have hread : (liftM (t.htGetList (htHashOneAtATime t.seed key)) : Allocating (Option Addr)) g =
      some (some a, g) := by
    rw [lift_apply, hslot]
    rfl
  unfold htSetInternal
  rw [if_neg hlen, bind_of_eq_some hread]

/-- The bucket of the key has to be created. -/
theorem htSetInternal_of_empty (hkey : key ≠ [])
    (hslot : t.htGetList (htHashOneAtATime t.seed key) = some none) :
    htSetInternal t key data dlen prevData prevLen copy inx g =
      if g 0 = true then
        setInList { t with toBuckets := (newList t.toBuckets
            ((htHashOneAtATime t.seed key).toNat % t.size)).1 }
          (newList t.toBuckets ((htHashOneAtATime t.seed key).toNat % t.size)).2
          (htHashOneAtATime t.seed key) key data dlen prevData prevLen copy inx fun n => g (n + 1)
      else some ((t, failed), fun n => g (n + 1)) := by
  have hlen : ¬ key.length = 0 := fun hlen => hkey (List.length_eq_zero_iff.mp hlen)
  have hread : (liftM (t.htGetList (htHashOneAtATime t.seed key)) : Allocating (Option Addr)) g =
      some (none, g) := by
    rw [lift_apply, hslot]
    rfl
  have hitem : t.items[(htHashOneAtATime t.seed key).toNat % t.size]? = some none := hslot
  unfold htSetInternal
  rw [if_neg hlen, bind_of_eq_some hread]
  dsimp only
  cases hg : g 0 with
  | false =>
      have hnew : htSetList t (htHashOneAtATime t.seed key) g =
          some (none, fun n => g (n + 1)) := by
        unfold htSetList
        rw [bind_of_eq_some (request_eq_some.mpr ⟨hg, rfl⟩)]
        rfl
      rw [bind_of_eq_some hnew, if_neg Bool.false_ne_true]
      rfl
  | true =>
      have hset := hitem
      have hnew : htSetList t (htHashOneAtATime t.seed key) g =
          some (some ({ t with toBuckets := (newList t.toBuckets
            ((htHashOneAtATime t.seed key).toNat % t.size)).1 },
            (newList t.toBuckets ((htHashOneAtATime t.seed key).toNat % t.size)).2),
            fun n => g (n + 1)) := by
        have hold : t.htSetList (htHashOneAtATime t.seed key) = some ({ t with
            toBuckets := (newList t.toBuckets
              ((htHashOneAtATime t.seed key).toNat % t.size)).1 },
            (newList t.toBuckets ((htHashOneAtATime t.seed key).toNat % t.size)).2) := by
          simp [HashTable.htSetList, hitem]
        unfold htSetList
        rw [bind_of_eq_some (request_eq_some.mpr ⟨hg, rfl⟩), if_pos rfl, hold]
        rfl
      rw [bind_of_eq_some hnew, if_pos rfl]

/-- A setter that fails leaves what was there, unless it is a copy that was refused. -/
theorem htSetInternal_failed (h : TableInv t)
    (hrun : htSetInternal t key data dlen prevData prevLen copy inx g = some ((t', r), g'))
    (hret : r.ret = -1) : Unchanged t t' ∨ copy = true ∧ CopyRefused t key dlen g := by
  by_cases hkey : key = []
  · subst hkey
    cases hrun
    exact Or.inl (Unchanged.refl t)
  rcases h.htGetList_cases (htHashOneAtATime t.seed key) with hslot | ⟨a, l, hslot, hl⟩
  · rw [htSetInternal_of_empty hkey hslot] at hrun
    left
    cases hg : g 0 with
    | false =>
        rw [hg, if_neg Bool.false_ne_true] at hrun
        cases hrun
        exact Unchanged.refl t
    | true =>
        rw [hg, if_pos rfl] at hrun
        obtain ⟨-, -, hnew, -, hstored⟩ := h.buckets.newList_eq hslot
        obtain rfl := setInList_failed_new hnew rfl hrun hret
        exact ⟨List.Perm.of_eq (congrArg (List.map HtItem.visit) hstored), rfl⟩
  · rw [htSetInternal_of_bucket hkey hslot] at hrun
    cases hfound : (l.head.find? fun it => htKeyEquals it.key key).bind HtItem.data with
    | none =>
        obtain rfl := setInList_failed_new hl hfound hrun hret
        exact Or.inl (Unchanged.refl t')
    | some prev =>
        obtain ⟨rfl, rfl, hg⟩ := setInList_failed_old hl hfound hrun hret
        obtain ⟨it, hfind, hprev⟩ := Option.bind_eq_some_iff.mp hfound
        by_cases hsame : it.dlen = dlen
        · left
          obtain ⟨b, rest, hrefused, -, hperm, hperm'⟩ := setInList_refused h hslot hl hfind
            hprev hg (htHashOneAtATime t.seed key) data dlen prevData prevLen
          cases hrefused.symm.trans hrun
          rw [← hsame] at hperm'
          exact ⟨(hperm'.trans hperm.symm).map _, rfl⟩
        · refine Or.inr ⟨rfl, hg, it, ?_, ?_, hsame⟩
          · simp [foundItem, hslot, hl, hfind]
          · rw [hprev]
            exact Option.some_ne_none _

/-- A copy that was refused leaves another triple. -/
theorem htSetInternal_refused (h : TableInv t) (href : CopyRefused t key dlen g)
    (data : Option Data) (prevData prevLen : Bool) :
    ∃ t' g', htSetInternal t key data dlen prevData prevLen true false g =
      some ((t', failed), g') ∧ ¬ Unchanged t t' := by
  obtain ⟨hg, it, hfound, hdata, hlen⟩ := href
  obtain ⟨a, hjoin, hrest⟩ := Option.bind_eq_some_iff.mp hfound
  obtain ⟨l, hl, hfind⟩ := Option.bind_eq_some_iff.mp hrest
  have hslot : t.htGetList (htHashOneAtATime t.seed key) = some (some a) :=
    Option.join_eq_some_iff.mp hjoin
  obtain ⟨prev, hprev⟩ := Option.ne_none_iff_exists'.mp hdata
  obtain ⟨b, rest, hrun, -, hperm, hperm'⟩ := setInList_refused h hslot hl hfind hprev hg
    (htHashOneAtATime t.seed key) data dlen prevData prevLen
  have hkey : key ≠ [] := by
    obtain ⟨-, hk, -⟩ := h.bucket_of_found hslot hl hfind
    obtain ⟨-, -, -, -, -, hp⟩ := h.buckets.stored_placed (hperm.mem_iff.mpr List.mem_cons_self)
    exact hk ▸ hp.keyNonempty
  refine ⟨_, _, (htSetInternal_of_bucket hkey hslot).trans hrun, ?_⟩
  rintro ⟨htriples, -⟩
  have hsame := ((hperm'.map HtItem.visit).symm.trans htriples).trans (hperm.map HtItem.visit)
  rw [List.map_cons, List.map_cons, ← Multiset.coe_eq_coe, ← Multiset.cons_coe,
    ← Multiset.cons_coe, Multiset.cons_inj_left] at hsame
  exact hlen (congrArg Visit.dlen hsame).symm

end Failed

/-! ## The five setters -/

/-- The setters that share `ht_set_internal`, each with the out parameters that it is called
with. -/
inductive Setter where
  | set
  | setIfNotExists
  | getOrSet (curData curLen : Bool)
  | getAndSet (prevData prevLen : Bool)
  | setCopy (prevData prevLen : Bool)

/-- The call of a setter. -/
def Setter.call (s : Setter) (t : HashTable) (key : Key) (data : Option Data) (dlen : ℕ) :
    Allocating (HashTable × SetResult) :=
  match s with
  | .set => htSet t key data dlen
  | .setIfNotExists => htSetIfNotExists t key data dlen
  | .getOrSet curData curLen => htGetOrSet t key data dlen curData curLen
  | .getAndSet prevData prevLen => htGetAndSet t key data dlen prevData prevLen
  | .setCopy prevData prevLen => htSetCopy t key data dlen prevData prevLen

/-- `ht_set_copy` stores copies. -/
def Setter.Copies : Setter → Prop
  | .setCopy _ _ => True
  | _ => False

/-- If the call returns -1, then the stored triples and the count are what they were. -/
def FailsCleanly (s : Setter) (t : HashTable) (key : Key) (data : Option Data) (dlen : ℕ)
    (g : Grants) : Prop :=
  ∀ t' r g', s.call t key data dlen g = some ((t', r), g') → r.ret = -1 → Unchanged t t'

/-- A setter leaves the table as it was when it returns -1, exactly if it is not a copy, over a
value of another length, that was refused. -/
theorem failsCleanly_iff (s : Setter) (t : HashTable) (key : Key) (data : Option Data) (dlen : ℕ)
    (g : Grants) (h : TableInv t) :
    FailsCleanly s t key data dlen g ↔ ¬ (s.Copies ∧ CopyRefused t key dlen g) := by
  constructor
  · rintro hclean ⟨hcopies, href⟩
    cases s with
    | setCopy prevData prevLen =>
        obtain ⟨t', g', hrun, hchanged⟩ := htSetInternal_refused h href data prevData prevLen
        exact hchanged (hclean t' failed g' hrun rfl)
    | _ => exact hcopies
  · intro hnot t' r g' hrun hret
    cases s with
    | setCopy prevData prevLen =>
        exact (htSetInternal_failed h hrun hret).resolve_right fun hbad => hnot ⟨trivial, hbad.2⟩
    | _ =>
        refine (htSetInternal_failed h hrun hret).resolve_right ?_
        rintro ⟨⟨⟩, -⟩

/-! ## A length without its value -/

/-- A fresh table after `ht_set` of a key with a value of one byte. -/
theorem exists_oneKey : ∃ t₀ t r, htCreate 0 0 false 0 = some t₀ ∧
    Setter.set.call t₀ [1] (some ⟨0, [7]⟩) 1 plenty = some ((t, r), plenty) ∧ TableInv t ∧
    ∃ it, t.foundItem [1] = some it ∧ it.data = some ⟨0, [7]⟩ ∧ it.dlen = 1 := by
  obtain ⟨t₀, hcreate⟩ : ∃ t₀, htCreate 0 0 false 0 = some t₀ := ⟨_, rfl⟩
  obtain ⟨hinv₀, hempty, -⟩ := htCreate_eq hcreate
  have habs : Absent [1] (stored t₀.toBuckets) := by
    rw [hempty]
    exact fun it hit => absurd hit List.not_mem_nil
  obtain ⟨t, hrun, hinv, -, -, -, hperm⟩ := htSetInternal_absent hinv₀ (List.cons_ne_nil 1 []) habs
    (show newItemData t₀.brk (some ⟨0, [7]⟩) 1 false = _ from rfl) false false false
  have hgranted := htSetInternal_granted t₀ [1] (some ⟨0, [7]⟩) 1 false false false false
  rw [Granted, hrun] at hgranted
  rw [hempty] at hperm
  have hpres : ¬ Absent [1] (stored t.toBuckets) := fun habs =>
    habs _ (hperm.mem_iff.mpr (List.mem_singleton_self _)) rfl
  obtain ⟨it, hfound⟩ := foundItem_present hinv hpres
  obtain ⟨rest, -, hrest, -⟩ := htCallInternal_found hinv hfound fun _ _ _ =>
    (none : Option (CallResult Unit))
  have hit := hperm.mem_iff.mp (hrest.mem_iff.mpr List.mem_cons_self)
  rw [List.mem_singleton] at hit
  refine ⟨t₀, t, _, hcreate, hgranted, hinv, it, hfound, ?_, ?_⟩
  · rw [hit]
    rfl
  · rw [hit]
    rfl

/-- A value of two bytes is to be copied over one of one byte, and memory runs out: the item
has length 2 and its old value of one byte. -/
theorem length_without_value :
    ¬ ∀ (s : Setter) (t : HashTable) (key : Key) (data : Option Data) (dlen : ℕ) (g : Grants),
      TableInv t → FailsCleanly s t key data dlen g := by
  intro hall
  obtain ⟨-, t, -, -, -, hinv, it, hfound, hdata, hlen⟩ := exists_oneKey
  have href : CopyRefused t [1] 2 fun _ => false :=
    ⟨rfl, it, hfound, by rw [hdata]; exact Option.some_ne_none _, by rw [hlen]; decide⟩
  obtain ⟨t', g', hrun, hchanged⟩ := htSetInternal_refused hinv href (some ⟨1, [8, 9]⟩) false false
  exact hchanged (hall (.setCopy false false) t [1] (some ⟨1, [8, 9]⟩) 2 _ hinv t' failed g' hrun
    rfl)

theorem failsCleanly_iff_oneKey : ∃ t, TableInv t ∧
    (FailsCleanly (.setCopy false false) t [1] (some ⟨1, [8, 9]⟩) 2 (fun _ => false) ↔
      ¬ ((Setter.setCopy false false).Copies ∧ CopyRefused t [1] 2 fun _ => false)) := by
  obtain ⟨-, t, -, -, -, hinv, -⟩ := exists_oneKey
  exact ⟨t, hinv, failsCleanly_iff (.setCopy false false) t [1] (some ⟨1, [8, 9]⟩) 2
    (fun _ => false) hinv⟩

end Scarce
end HashTable
end LibHL
