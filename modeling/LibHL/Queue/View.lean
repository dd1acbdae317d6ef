import Mathlib.Data.List.Nodup
import Mathlib.Data.Set.Insert
import LibHL.Queue.Model

/-!
# What a single thread sees of the queue

A view speaks of entries only: their links lead to entries, and an entry has a
count.  The nodes, the free list and the pool of nodes stay below it.  Each
primitive that the queue uses is specified once, by what it does to a view, so
that the operations can be followed without looking at the memory again.
-/

namespace LibHL
namespace Queue

open RefCnt

variable {V α β : Type}

/-- A link from one entry to another, and its mark. -/
structure Link where
  target : Option Addr
  mark : Bool
deriving DecidableEq, Repr

/-- The entries that are in use, and what is known of them. -/
@[ext] structure View (V : Type) where
  live : Set Addr
  node : Addr → Addr
  value : Addr → Option V
  count : Addr → UInt32
  link : Addr × Dir → Link
  head : Addr
  tail : Addr
  length : ℕ
  terminated : List Addr

namespace View

/-- The link to an entry, without a mark. -/
def linkTo (e : Addr) : Link := ⟨some e, false⟩

/-- The link to no entry. -/
def noLink : Link := ⟨none, false⟩

/-- The reference that stands for a link. -/
def ref (v : View V) (l : Link) : Ref := ⟨l.target.map v.node, l.mark⟩

/-- The view after the count of an entry changed. -/
def setCount (v : View V) (e : Addr) (c : UInt32) : View V :=
  { v with count := Function.update v.count e c }

/-- The view after a reference to an entry was taken. -/
def retain (v : View V) (e : Addr) : View V := v.setCount e (v.count e + 1)

/-- The view after a reference to an entry was given back. -/
def release (v : View V) (e : Addr) : View V := v.setCount e (v.count e - 1)

/-- The view after a link changed. -/
def setLink (v : View V) (a : Addr × Dir) (l : Link) : View V :=
  { v with link := Function.update v.link a l }

/-- The view with a new entry. -/
def create (v : View V) (e node : Addr) (value : Option V) : View V :=
  { v with
    live := insert e v.live
    node := Function.update v.node e node
    value := Function.update v.value e value
    count := Function.update v.count e 1
    link := Function.update (Function.update v.link (e, .prev) noLink) (e, .next) noLink }

/-- The view after the node of an entry was terminated. -/
def drop (v : View V) (e : Addr) : View V :=
  { v with live := v.live \ {e}, terminated := v.terminated ++ [e] }

section Projections

variable (v : View V) (e x : Addr) (a b : Addr × Dir) (l : Link) (c : UInt32)

@[simp] theorem retain_count :
    (v.retain e).count x = if x = e then v.count e + 1 else v.count x := by
  simp [retain, setCount, Function.update_apply]

@[simp] theorem release_count :
    (v.release e).count x = if x = e then v.count e - 1 else v.count x := by
  simp [release, setCount, Function.update_apply]

@[simp] theorem setLink_link :
    (v.setLink a l).link b = if b = a then l else v.link b := by
  simp [setLink, Function.update_apply]

-- The rest holds by definition, so that `simp` leaves no trace of it in the proofs that use it.
@[simp] theorem setLink_count : (v.setLink a l).count = v.count := rfl
@[simp] theorem retain_link : (v.retain e).link = v.link := rfl
@[simp] theorem release_link : (v.release e).link = v.link := rfl
@[simp] theorem retain_live : (v.retain e).live = v.live := rfl
@[simp] theorem release_live : (v.release e).live = v.live := rfl
@[simp] theorem setLink_live : (v.setLink a l).live = v.live := rfl
@[simp] theorem retain_node : (v.retain e).node = v.node := rfl
@[simp] theorem release_node : (v.release e).node = v.node := rfl
@[simp] theorem setLink_node : (v.setLink a l).node = v.node := rfl
@[simp] theorem retain_value : (v.retain e).value = v.value := rfl
@[simp] theorem release_value : (v.release e).value = v.value := rfl
@[simp] theorem setLink_value : (v.setLink a l).value = v.value := rfl
@[simp] theorem retain_head : (v.retain e).head = v.head := rfl
@[simp] theorem release_head : (v.release e).head = v.head := rfl
@[simp] theorem setLink_head : (v.setLink a l).head = v.head := rfl
@[simp] theorem retain_tail : (v.retain e).tail = v.tail := rfl
@[simp] theorem release_tail : (v.release e).tail = v.tail := rfl
@[simp] theorem setLink_tail : (v.setLink a l).tail = v.tail := rfl
@[simp] theorem retain_length : (v.retain e).length = v.length := rfl
@[simp] theorem release_length : (v.release e).length = v.length := rfl
@[simp] theorem setLink_length : (v.setLink a l).length = v.length := rfl
@[simp] theorem retain_terminated : (v.retain e).terminated = v.terminated := rfl
@[simp] theorem release_terminated : (v.release e).terminated = v.terminated := rfl
@[simp] theorem setLink_terminated : (v.setLink a l).terminated = v.terminated := rfl

end Projections
end View

open View

/-! ## The memory behind a view -/

/-- A node on the free list, and its entry, which no link leads to. -/
structure Retired (q : Queue V) (live : Set Addr) (n : Addr) (nd : RefcntNode Addr) : Prop where
  node : q.nodes n = some nd
  dead : nd.ptr ∉ live
  entry : ∃ value, q.ext.entries nd.ptr = some ⟨n, value⟩
  links : ∀ d, q.links (nd.ptr, d) = some null

/-- The entries that are in use are as the view has them, and every other entry is
on the free list or gone. -/
structure Sees (q : Queue V) (v : View V) : Prop where
  entry : ∀ e ∈ v.live, q.ext.entries e = some ⟨v.node e, v.value e⟩
  node : ∀ e ∈ v.live, q.nodes (v.node e) = some ⟨e, v.count e, false⟩
  link : ∀ e ∈ v.live, ∀ d, q.links (e, d) = some (v.ref (v.link (e, d)))
  target : ∀ e ∈ v.live, ∀ d t, (v.link (e, d)).target = some t → t < q.ext.entries.brk
  head : q.ext.head = v.head
  tail : q.ext.tail = v.tail
  length : q.ext.length = v.length
  terminated : q.terminated = v.terminated
  terminated_nodup : v.terminated.Nodup
  mem_terminated : ∀ e, e ∈ v.terminated ↔ e < q.ext.entries.brk ∧ e ∉ v.live
  threshold : q.gcThreshold = 2 ^ 10
  retired : ∀ n ∈ q.freeList, ∃ nd, Retired q v.live n nd
  free_nodup : q.freeList.Nodup
  pool : ∀ n ∈ q.nodePool, (q.nodes n).isSome
  pool_unused : ∀ e ent, q.ext.entries e = some ent → ent.node ∉ q.nodePool
  pool_nodup : q.nodePool.Nodup
  owner : ∀ e ent, q.ext.entries e = some ent → ∃ nd, q.nodes ent.node = some nd ∧ nd.ptr = e
  rest : ∀ e ent, q.ext.entries e = some ent → e ∈ v.live ∨ ent.node ∈ q.freeList
  absent : ∀ e d, q.ext.entries e = none → q.links (e, d) = none

namespace Sees

variable {q : Queue V} {v : View V}

theorem node_inj (h : Sees q v) {e e' : Addr} (he : e ∈ v.live) (he' : e' ∈ v.live)
    (heq : v.node e = v.node e') : e = e' := by
  have h₁ := h.node e he
  rw [heq, h.node e' he'] at h₁
  cases h₁
  rfl

theorem node_not_free (h : Sees q v) {e : Addr} (he : e ∈ v.live) : v.node e ∉ q.freeList := by
  intro hmem
  obtain ⟨nd, hnd⟩ := h.retired _ hmem
  have hnode := hnd.node
  rw [h.node e he] at hnode
  cases hnode
  exact hnd.dead he

theorem lt_brk (h : Sees q v) {e : Addr} (he : e ∈ v.live) : e < q.ext.entries.brk :=
  Heap.lt_brk_of_eq_some (h.entry e he)

theorem setCount (h : Sees q v) {e : Addr} (he : e ∈ v.live) (c : UInt32) :
    Sees { q with nodes := q.nodes.put (v.node e) ⟨e, c, false⟩ } (v.setCount e c) := by
  have hput : ∀ n nd, n ≠ v.node e → q.nodes n = some nd →
      (q.nodes.put (v.node e) ⟨e, c, false⟩) n = some nd := by
    intro n nd hne hn
    rw [Heap.put_of_ne hne, hn]
  refine { h with node := ?_, retired := ?_, pool := ?_, owner := ?_ }
  · intro e' he'
    by_cases hee : e' = e
    · subst hee
      simp only [View.setCount, Function.update_self]
      exact Heap.put_self (h.node e' he)
    · simp only [View.setCount, Function.update_of_ne hee]
      exact hput _ _ (fun heq => hee (h.node_inj he' he heq)) (h.node e' he')
  · intro n hn
    obtain ⟨nd, hnd⟩ := h.retired n hn
    refine ⟨nd, { hnd with node := hput n nd ?_ hnd.node }⟩
    rintro rfl
    exact h.node_not_free he hn
  · intro n hn
    show (Heap.put _ _ _ n).isSome
    rw [Heap.put_apply]
    split
    · rfl
    · exact h.pool n hn
  · intro e' ent he'
    obtain ⟨nd, hnd, hptr⟩ := h.owner e' ent he'
    by_cases hne : ent.node = v.node e
    · rw [hne, h.node e he] at hnd
      cases hnd
      subst hptr
      refine ⟨⟨e, c, false⟩, ?_, rfl⟩
      simp only [hne]
      exact Heap.put_self (h.node e he)
    · exact ⟨nd, hput _ _ hne hnd, hptr⟩

/-- A change to a link of an entry in use. -/
theorem setLink (h : Sees q v) {e : Addr} (he : e ∈ v.live) (d : Dir) (l : Link)
    (ht : ∀ t, l.target = some t → t ∈ v.live) :
    Sees { q with links := Function.update q.links (e, d) (some (v.ref l)) }
      (v.setLink (e, d) l) := by
  have hother : ∀ e' d', e' ≠ e →
      Function.update q.links (e, d) (some (v.ref l)) (e', d') = q.links (e', d') := by
    intro e' d' hne
    exact Function.update_of_ne (by simp [hne]) _ _
  refine { h with link := ?_, target := ?_, retired := ?_, absent := ?_ }
  · intro e' he' d'
    by_cases hed : (e', d') = (e, d)
    · simp only [View.setLink, hed, Function.update_self]
      rfl
    · simp only [View.setLink, Function.update_of_ne hed]
      exact h.link e' he' d'
  · intro e' he' d' t htt
    by_cases hed : (e', d') = (e, d)
    · simp only [View.setLink, hed, Function.update_self] at htt
      exact h.lt_brk (ht t htt)
    · simp only [View.setLink, Function.update_of_ne hed] at htt
      exact h.target e' he' d' t htt
  · intro n hn
    obtain ⟨nd, hnd⟩ := h.retired n hn
    have hne : nd.ptr ≠ e := fun heq => hnd.dead (heq ▸ he)
    exact ⟨nd, { hnd with links := fun d' => (hother nd.ptr d' hne).trans (hnd.links d') }⟩
  · intro e' d' hnone
    have hne : e' ≠ e := by
      rintro rfl
      exact Option.some_ne_none _ ((h.entry e' he).symm.trans hnone)
    exact (hother e' d' hne).trans (h.absent e' d' hnone)

/-- A change of what the reference counts do not know. -/
theorem setExt (h : Sees q v) (ext : QueueData V) {head tail : Addr} {length : ℕ}
    (hentries : ext.entries = q.ext.entries) (hhead : ext.head = head)
    (htail : ext.tail = tail) (hlength : ext.length = length) :
    Sees { q with ext := ext } { v with head := head, tail := tail, length := length } := by
  have hret : ∀ n nd, Retired q v.live n nd → Retired { q with ext := ext } v.live n nd := by
    intro n nd hnd
    exact { hnd with entry := by simpa only [hentries] using hnd.entry }
  exact {
    entry := by simpa only [hentries] using h.entry
    node := h.node
    link := h.link
    target := by simpa only [hentries] using h.target
    head := hhead
    tail := htail
    length := hlength
    terminated := h.terminated
    terminated_nodup := h.terminated_nodup
    mem_terminated := by simpa only [hentries] using h.mem_terminated
    threshold := h.threshold
    retired := fun n hn => (h.retired n hn).imp (hret n)
    free_nodup := h.free_nodup
    pool := h.pool
    pool_unused := by simpa only [hentries] using h.pool_unused
    pool_nodup := h.pool_nodup
    owner := by simpa only [hentries] using h.owner
    rest := by simpa only [hentries] using h.rest
    absent := by simpa only [hentries] using h.absent }

/-- The state after an entry was created with the node `n`. -/
abbrev created (q : Queue V) (nodes : Heap (RefcntNode Addr)) (pool : List Addr) (n : Addr)
    (value : Option V) : Queue V :=
  { q with
    nodes := nodes
    nodePool := pool
    links := Function.update
      (Function.update q.links (q.ext.entries.brk, .prev) (some null))
      (q.ext.entries.brk, .next) (some null)
    ext := { q.ext with entries := (q.ext.entries.alloc ⟨n, value⟩).1 } }

/-- A new entry takes a node that no entry has. -/
theorem create (h : Sees q v) (nodes : Heap (RefcntNode Addr)) (pool : List Addr) (n : Addr)
    (value : Option V) (hn : nodes n = some ⟨q.ext.entries.brk, 1, false⟩)
    (hother : ∀ m, m ≠ n → nodes m = q.nodes m)
    (hnew : ∀ e ent, q.ext.entries e = some ent → ent.node ≠ n)
    (hpool : pool.Sublist q.nodePool) (hmem : n ∉ pool) :
    Sees (created q nodes pool n value) (v.create q.ext.entries.brk n value) := by
  have hbrk : ∀ e ent, q.ext.entries e = some ent → e ≠ q.ext.entries.brk :=
    fun e ent he => (Heap.lt_brk_of_eq_some he).ne
  have hentries : ∀ e, e ≠ q.ext.entries.brk →
      (q.ext.entries.alloc ⟨n, value⟩).1 e = q.ext.entries e := by
    intro e hne
    rw [Heap.alloc_apply, if_neg hne]
  have hself : (q.ext.entries.alloc ⟨n, value⟩).1 q.ext.entries.brk = some ⟨n, value⟩ := by
    rw [Heap.alloc_apply, if_pos rfl]
  have hlinks : ∀ e d, e ≠ q.ext.entries.brk →
      (created q nodes pool n value).links (e, d) = q.links (e, d) := by
    intro e d hne
    simp [hne]
  have hlinks_self : ∀ d, (created q nodes pool n value).links (q.ext.entries.brk, d) =
      some null := by
    intro d
    cases d <;> simp
  have hfree : n ∉ q.freeList := by
    intro hf
    obtain ⟨nd, hnd⟩ := h.retired n hf
    obtain ⟨w, hw⟩ := hnd.entry
    exact hnew _ _ hw rfl
  have hvlink : ∀ e d, e ≠ q.ext.entries.brk →
      (v.create q.ext.entries.brk n value).link (e, d) = v.link (e, d) := by
    intro e d hne
    simp [View.create, hne]
  have hvlink_self : ∀ d, (v.create q.ext.entries.brk n value).link (q.ext.entries.brk, d) =
      noLink := by
    intro d
    cases d <;> simp [View.create]
  have hlive : ∀ e ∈ (v.create q.ext.entries.brk n value).live,
      e = q.ext.entries.brk ∨ e ≠ q.ext.entries.brk ∧ e ∈ v.live := by
    intro e he
    rcases he with rfl | he
    · exact Or.inl rfl
    · exact Or.inr ⟨hbrk e _ (h.entry e he), he⟩
  refine {
    entry := ?_, node := ?_, link := ?_, target := ?_, head := h.head, tail := h.tail,
    length := h.length, terminated := h.terminated, terminated_nodup := h.terminated_nodup,
    mem_terminated := ?_, threshold := h.threshold, retired := ?_, free_nodup := h.free_nodup,
    pool := ?_, pool_unused := ?_,
    pool_nodup := hpool.nodup h.pool_nodup, owner := ?_, rest := ?_, absent := ?_ }
  · intro e he
    rcases hlive e he with rfl | ⟨hne, he⟩
    · simp only [View.create, Function.update_self]
      exact hself
    · simp only [View.create, Function.update_of_ne hne]
      exact (hentries e hne).trans (h.entry e he)
  · intro e he
    rcases hlive e he with rfl | ⟨hne, he⟩
    · simp only [View.create, Function.update_self]
      exact hn
    · simp only [View.create, Function.update_of_ne hne]
      exact (hother _ (hnew _ _ (h.entry e he))).trans (h.node e he)
  · intro e he d
    rcases hlive e he with rfl | ⟨hne, he⟩
    · rw [hlinks_self, hvlink_self]
      rfl
    · rw [hlinks e d hne, hvlink e d hne, h.link e he d]
      cases ht : (v.link (e, d)).target with
      | none => simp [View.ref, ht]
      | some t =>
          have hlt : t ≠ q.ext.entries.brk := (h.target e he d t ht).ne
          simp [View.ref, View.create, ht, Function.update_of_ne hlt]
  · intro e he d t ht
    rcases hlive e he with rfl | ⟨hne, he⟩
    · rw [hvlink_self] at ht
      cases ht
    · rw [hvlink e d hne] at ht
      exact Nat.lt_succ_of_lt (h.target e he d t ht)
  · intro e
    rw [show (v.create q.ext.entries.brk n value).terminated = v.terminated from rfl,
      h.mem_terminated e]
    simp only [View.create, Heap.alloc_brk, Set.mem_insert_iff]
    constructor
    · rintro ⟨hlt, hdead⟩
      refine ⟨Nat.lt_succ_of_lt hlt, ?_⟩
      rintro (rfl | hl)
      · exact lt_irrefl _ hlt
      · exact hdead hl
    · rintro ⟨hlt, hdead⟩
      rw [not_or] at hdead
      exact ⟨lt_of_le_of_ne (Nat.lt_succ_iff.mp hlt) hdead.1, hdead.2⟩
  · intro m hm
    obtain ⟨nd, hnd⟩ := h.retired m hm
    obtain ⟨w, hw⟩ := hnd.entry
    have hne : nd.ptr ≠ q.ext.entries.brk := hbrk _ _ hw
    refine ⟨nd, ⟨(hother m fun heq => hfree (heq ▸ hm)).trans hnd.node, ?_,
      ⟨w, (hentries _ hne).trans hw⟩, fun d => (hlinks _ d hne).trans (hnd.links d)⟩⟩
    rintro (heq | hl)
    · exact hne heq
    · exact hnd.dead hl
  · intro m hm
    show (nodes m).isSome
    rw [hother m fun heq => hmem (heq ▸ hm)]
    exact h.pool m (hpool.subset hm)
  · intro e ent he
    by_cases hne : e = q.ext.entries.brk
    · subst hne
      cases hself.symm.trans he
      exact hmem
    · intro hin
      exact h.pool_unused e ent ((hentries e hne).symm.trans he) (hpool.subset hin)
  · intro e ent he
    by_cases hne : e = q.ext.entries.brk
    · subst hne
      cases hself.symm.trans he
      exact ⟨_, hn, rfl⟩
    · have he' := (hentries e hne).symm.trans he
      obtain ⟨nd, hnd, hptr⟩ := h.owner e ent he'
      exact ⟨nd, (hother _ (hnew e ent he')).trans hnd, hptr⟩
  · intro e ent he
    by_cases hne : e = q.ext.entries.brk
    · exact Or.inl (Or.inl hne)
    · exact (h.rest e ent ((hentries e hne).symm.trans he)).imp_left Or.inr
  · intro e d hnone
    have hne : e ≠ q.ext.entries.brk := by
      rintro rfl
      exact Option.some_ne_none _ (hself.symm.trans hnone)
    exact (hlinks e d hne).trans (h.absent e d ((hentries e hne).symm.trans hnone))

/-- An entry without links goes to the free list. -/
theorem drop (h : Sees q v) {e : Addr} (he : e ∈ v.live) (hl : ∀ d, v.link (e, d) = noLink)
    (nd : RefcntNode Addr) (hptr : nd.ptr = e) :
    Sees { q with
      nodes := q.nodes.put (v.node e) nd
      freeList := q.freeList ++ [v.node e]
      terminated := q.terminated ++ [e] } (v.drop e) := by
  have hput : ∀ n nd', n ≠ v.node e → q.nodes n = some nd' →
      (q.nodes.put (v.node e) nd) n = some nd' := by
    intro n nd' hne hn
    rw [Heap.put_of_ne hne, hn]
  have hself : (q.nodes.put (v.node e) nd) (v.node e) = some nd := Heap.put_self (h.node e he)
  have hdead : e ∉ v.terminated := fun hmem => ((h.mem_terminated e).mp hmem).2 he
  refine { h with
    entry := fun e' he' => h.entry e' he'.1, node := ?_, link := fun e' he' => h.link e' he'.1,
    target := fun e' he' => h.target e' he'.1, terminated := ?_, terminated_nodup := ?_,
    mem_terminated := ?_, retired := ?_, free_nodup := ?_, pool := ?_, owner := ?_, rest := ?_ }
  · rintro e' ⟨he', hne⟩
    exact hput _ _ (fun heq => hne (h.node_inj he' he heq)) (h.node e' he')
  · exact congrArg (· ++ [e]) h.terminated
  · exact List.nodup_append.mpr ⟨h.terminated_nodup, List.nodup_singleton e,
      by rintro a ha b hb rfl; exact hdead (List.mem_singleton.mp hb ▸ ha)⟩
  · intro e'
    simp only [View.drop, List.mem_append, List.mem_singleton, h.mem_terminated e',
      Set.mem_sdiff, Set.mem_singleton_iff]
    by_cases heq : e' = e
    · subst heq
      simp [h.lt_brk he]
    · simp [heq]
  · intro n hn
    rcases List.mem_append.mp hn with hn | hn
    · obtain ⟨nd', hnd⟩ := h.retired n hn
      refine ⟨nd', { hnd with node := hput n nd' ?_ hnd.node, dead := fun hd => hnd.dead hd.1 }⟩
      rintro rfl
      exact h.node_not_free he hn
    · rw [List.mem_singleton] at hn
      subst hn
      refine ⟨nd, ⟨hself, fun hd => hd.2 hptr, ⟨v.value e, hptr ▸ h.entry e he⟩, fun d => ?_⟩⟩
      show q.links (nd.ptr, d) = _
      rw [hptr, h.link e he d, hl d]
      rfl
  · refine List.nodup_append.mpr ⟨h.free_nodup, List.nodup_singleton _, ?_⟩
    rintro a ha b hb rfl
    exact h.node_not_free he (List.mem_singleton.mp hb ▸ ha)
  · intro n hn
    show (Heap.put _ _ _ n).isSome
    rw [Heap.put_apply]
    split
    · rfl
    · exact h.pool n hn
  · intro e' ent he'
    obtain ⟨nd', hnd, hptr'⟩ := h.owner e' ent he'
    by_cases hne : ent.node = v.node e
    · rw [hne, h.node e he] at hnd
      cases hnd
      exact ⟨nd, by simp only [hne]; exact hself, hptr.trans hptr'⟩
    · exact ⟨nd', hput _ _ hne hnd, hptr'⟩
  · intro e' ent he'
    rcases h.rest e' ent he' with hlive | hfree
    · by_cases heq : e' = e
      · subst heq
        cases (h.entry e' he).symm.trans he'
        exact Or.inr (List.mem_append_right _ (List.mem_singleton_self _))
      · exact Or.inl ⟨hlive, heq⟩
    · exact Or.inr (List.mem_append_left _ hfree)

/-- The state after the first entry of the free list was freed. -/
abbrev freed (q : Queue V) (e : Addr) (rest : List Addr) : Queue V :=
  { q with
    freeList := rest
    links := Function.update (Function.update q.links (e, .prev) none) (e, .next) none
    ext := { q.ext with entries := q.ext.entries.kill e } }

/-- An entry of the free list can be freed, after which no entry has its node. -/
theorem freeEntry (h : Sees q v) {n : Addr} {rest : List Addr} {nd : RefcntNode Addr}
    (hfree : q.freeList = n :: rest) (hnd : Retired q v.live n nd) :
    Sees (freed q nd.ptr rest) v ∧ n ∉ rest ∧ n ∉ q.nodePool ∧
      ∀ e ent, (freed q nd.ptr rest).ext.entries e = some ent → ent.node ≠ n := by
  obtain ⟨w, hw⟩ := hnd.entry
  have hnodup := h.free_nodup
  rw [hfree, List.nodup_cons] at hnodup
  have hsub : ∀ m, m ∈ rest → m ∈ q.freeList := fun m hm => hfree ▸ List.mem_cons_of_mem n hm
  have hentries : ∀ e, e ≠ nd.ptr → (q.ext.entries.kill nd.ptr) e = q.ext.entries e :=
    fun e hne => by rw [Heap.kill_apply, if_neg hne]
  have hkilled : ∀ e ent, (q.ext.entries.kill nd.ptr) e = some ent →
      e ≠ nd.ptr ∧ q.ext.entries e = some ent := by
    intro e ent he
    rw [Heap.kill_apply] at he
    split at he
    · cases he
    · exact ⟨‹_›, he⟩
  have hlinks : ∀ e d, e ≠ nd.ptr → (freed q nd.ptr rest).links (e, d) = q.links (e, d) := by
    intro e d hne
    simp [hne]
  have hlive : ∀ e ∈ v.live, e ≠ nd.ptr := by
    rintro e he rfl
    exact hnd.dead he
  have hown : ∀ e ent, (q.ext.entries.kill nd.ptr) e = some ent → ent.node ≠ n := by
    rintro e ent he heq
    obtain ⟨hne, he⟩ := hkilled e ent he
    obtain ⟨nd', hnd', hptr⟩ := h.owner e ent he
    rw [heq, hnd.node] at hnd'
    cases hnd'
    exact hne hptr.symm
  refine ⟨?_, hnodup.1, h.pool_unused _ _ hw, hown⟩
  refine { h with
    entry := ?_, link := ?_, retired := ?_, free_nodup := hnodup.2, pool_unused := ?_,
    owner := ?_, rest := ?_, absent := ?_ }
  · intro e he
    exact (hentries e (hlive e he)).trans (h.entry e he)
  · intro e he d
    exact (hlinks e d (hlive e he)).trans (h.link e he d)
  · intro m hm
    obtain ⟨nd', hnd'⟩ := h.retired m (hsub m hm)
    obtain ⟨w', hw'⟩ := hnd'.entry
    have hne : nd'.ptr ≠ nd.ptr := by
      intro heq
      rw [heq, hw] at hw'
      cases hw'
      exact hnodup.1 hm
    exact ⟨nd', { hnd' with
      entry := ⟨w', (hentries _ hne).trans hw'⟩
      links := fun d => (hlinks _ d hne).trans (hnd'.links d) }⟩
  · intro e ent he
    exact h.pool_unused e ent (hkilled e ent he).2
  · intro e ent he
    exact h.owner e ent (hkilled e ent he).2
  · intro e ent he
    refine (h.rest e ent (hkilled e ent he).2).imp_right fun hmem => ?_
    rw [hfree, List.mem_cons] at hmem
    exact hmem.resolve_left (hown e ent he)
  · intro e d hnone
    by_cases hne : e = nd.ptr
    · subst hne
      cases d <;> simp
    · exact (hlinks e d hne).trans (h.absent e d ((hentries e hne).symm.trans hnone))

/-- A node that no entry has goes to the pool. -/
theorem recycle (h : Sees q v) {n : Addr} (hn : (q.nodes n).isSome) (hpool : n ∉ q.nodePool)
    (hown : ∀ e ent, q.ext.entries e = some ent → ent.node ≠ n) :
    Sees { q with nodePool := q.nodePool ++ [n] } v := by
  refine { h with retired := ?_, pool := ?_, pool_unused := ?_, pool_nodup := ?_ }
  · intro m hm
    obtain ⟨nd, hnd⟩ := h.retired m hm
    exact ⟨nd, { hnd with }⟩
  · intro m hm
    rcases List.mem_append.mp hm with hm | hm
    · exact h.pool m hm
    · exact List.mem_singleton.mp hm ▸ hn
  · intro e ent he hm
    rcases List.mem_append.mp hm with hm | hm
    · exact h.pool_unused e ent he hm
    · exact hown e ent he (List.mem_singleton.mp hm)
  · refine List.nodup_append.mpr ⟨h.pool_nodup, List.nodup_singleton n, ?_⟩
    rintro a ha b hb rfl
    exact hpool (List.mem_singleton.mp hb ▸ ha)

theorem freeNode (h : Sees q v) {n : Addr} (hfree : n ∉ q.freeList) (hpool : n ∉ q.nodePool)
    (hown : ∀ e ent, q.ext.entries e = some ent → ent.node ≠ n) :
    Sees { q with nodes := q.nodes.kill n } v := by
  have hkill : ∀ m, m ≠ n → (q.nodes.kill n) m = q.nodes m :=
    fun m hne => by rw [Heap.kill_apply, if_neg hne]
  refine { h with node := ?_, retired := ?_, pool := ?_, owner := ?_ }
  · intro e he
    exact (hkill _ (hown _ _ (h.entry e he))).trans (h.node e he)
  · intro m hm
    obtain ⟨nd, hnd⟩ := h.retired m hm
    have hne : m ≠ n := fun heq => hfree (heq ▸ hm)
    exact ⟨nd, { hnd with node := (hkill m hne).trans hnd.node }⟩
  · intro m hm
    have hne : m ≠ n := fun heq => hpool (heq ▸ hm)
    exact (congrArg Option.isSome (hkill m hne)).trans (h.pool m hm)
  · intro e ent he
    obtain ⟨nd, hnd, hptr⟩ := h.owner e ent he
    exact ⟨nd, (hkill _ (hown e ent he)).trans hnd, hptr⟩

end Sees
end Queue
end LibHL
