import LibHL.Graph.Model
import LibHL.HashTable.MapRefinement
import LibHL.Support.LiveCells

/-!
# The nodes of a graph and its table

The table finds exactly the live nodes, each under its own label, so no two live nodes
share a label.  Storing a node under a label that is in use destroys the node that had
it; everything else leaves the nodes and their labels alone.
-/

namespace LibHL
namespace Graph

open HashTable

/-! ## Registered nodes -/

/-- A node that the table holds. -/
def Registered (g : Graph) (node : Addr) : Prop :=
  some (nodeData node) ∈ (stored g.nodes.toBuckets).map HtItem.data

instance (g : Graph) (node : Addr) : Decidable (Registered g node) :=
  inferInstanceAs (Decidable (_ ∈ _))

/-- A node pointer as a value of the table. -/
def nodeValue (node : Addr) : Value where
  data := nodeData node
  size := sizeofNode
  fits := by rw [nodeData, List.length_replicate]
  pos := by decide

theorem nodeValue_injective : Function.Injective nodeValue :=
  fun _ _ heq => congrArg (fun v => v.data.addr) heq

/-- The table holds exactly the live nodes, under their labels. -/
structure Registers (g : Graph) (s : MapState) : Prop where
  table : Simulates g.nodes s
  destroys : g.nodes.freeItemCb = true
  found : ∀ label v, s.map.lookup label = some v ↔
    ∃ node n, g.heap node = some n ∧ n.label = label ∧ v = nodeValue node

variable {g : Graph} {s : MapState} {node : Addr} {n : GraphNode} {label : Key}

namespace Registers

theorem lookup (h : Registers g s) (hn : g.heap node = some n) :
    s.map.lookup n.label = some (nodeValue node) :=
  (h.found n.label (nodeValue node)).mpr ⟨node, n, hn, rfl, rfl⟩

/-- Live nodes have different labels. -/
theorem label_unique (h : Registers g s) {node' : Addr} {n' : GraphNode}
    (hn : g.heap node = some n) (hn' : g.heap node' = some n') (heq : n.label = n'.label) :
    node = node' := by
  have hl := h.lookup hn
  rw [heq, h.lookup hn'] at hl
  exact (nodeValue_injective (Option.some.inj hl)).symm

theorem label_ne_nil (h : Registers g s) (hn : g.heap node = some n) : n.label ≠ [] := by
  obtain ⟨rest, hperm, -⟩ := h.table.present (h.lookup hn)
  obtain ⟨-, -, -, -, -, hplaced⟩ :=
    h.table.inv.buckets.stored_placed (hperm.mem_iff.mpr List.mem_cons_self)
  exact hplaced.keyNonempty

theorem registered_iff (h : Registers g s) : Registered g node ↔ (g.heap node).isSome := by
  have hmem : Registered g node ↔ ∃ e ∈ s.map.entries, e.2.data = nodeData node := by
    rw [Registered, List.mem_map]
    constructor
    · rintro ⟨it, hit, hdata⟩
      have hit' : it ∈ (stored g.nodes.toBuckets : Multiset HtItem) := hit
      rw [h.table.entries] at hit'
      obtain ⟨e, he, rfl⟩ := Multiset.mem_map.mp hit'
      exact ⟨e, he, Option.some.inj hdata⟩
    · rintro ⟨e, he, hdata⟩
      have hit : entryItem g.nodes.seed e ∈ (stored g.nodes.toBuckets : Multiset HtItem) := by
        rw [h.table.entries]
        exact Multiset.mem_map_of_mem _ he
      exact ⟨_, hit, congrArg some hdata⟩
  rw [hmem]
  constructor
  · rintro ⟨e, he, hdata⟩
    obtain ⟨node', n, hn, -, hv⟩ := (h.found e.1 e.2).mp (FiniteMap.lookup_of_mem he)
    have heq : node' = node := by
      rw [hv] at hdata
      exact congrArg Data.addr hdata
    rw [← heq, hn]
    rfl
  · intro hlive
    obtain ⟨n, hn⟩ := Option.isSome_iff_exists.mp hlive
    exact ⟨⟨n.label, nodeValue node⟩, Finmap.lookup_eq_some_iff.mp (h.lookup hn), rfl⟩

/-- Writes that keep the labels leave the registration alone. -/
theorem of_sameThrough {g' : Graph} (h : Registers g s) (htable : Simulates g'.nodes s)
    (hcb : g'.nodes.freeItemCb = true)
    (hlabels : Heap.SameThrough GraphNode.label g.heap g'.heap) : Registers g' s := by
  refine ⟨htable, hcb, ?_⟩
  intro label v
  rw [h.found label v]
  constructor
  · rintro ⟨node, n, hn, hlabel, hv⟩
    obtain ⟨n', hn', heq⟩ := hlabels.exists_eq_some hn
    exact ⟨node, n', hn', heq.trans hlabel, hv⟩
  · rintro ⟨node, n, hn, hlabel, hv⟩
    obtain ⟨n', hn', heq⟩ := hlabels.symm.exists_eq_some hn
    exact ⟨node, n', hn', heq.trans hlabel, hv⟩

end Registers

theorem Registers.create {name : Option Key} {cb : Bool} {seed : UInt32}
    (h : graphCreate name cb seed = some g) : Registers g ⟨∅, 0⟩ := by
  rw [graphCreate] at h
  obtain ⟨t, ht, heq⟩ := Option.bind_eq_some_iff.mp h
  cases heq
  obtain ⟨hinv, hempty, -, hbrk, -⟩ := htCreate_eq ht
  refine ⟨⟨hinv, hbrk, ?_⟩, ?_, ?_⟩
  · rw [hempty]
    rfl
  · rw [htCreate] at ht
    obtain ⟨-, heq⟩ := Option.ite_none_right_eq_some.mp ht
    show t.freeItemCb = true
    rw [← Option.some.inj heq]
  · intro label v
    constructor
    · intro hl
      rw [Finmap.lookup_empty] at hl
      cases hl
    · rintro ⟨node, n, hn, -⟩
      cases hn

/-! ## The operations -/

theorem graphNodeDestroy_eq (hn : g.heap node = some n) :
    ∃ g', g.graphNodeDestroy node = some g' ∧ g'.heap = g.heap.kill node ∧
      g'.nodes = g.nodes := by
  let released := if g.freeValueCb then g.released ++ n.value.toList else g.released
  refine ⟨{ g with heap := g.heap.kill node, released := released }, ?_, rfl, rfl⟩
  rw [graphNodeDestroy, hn, Heap.free_eq_some hn]
  rfl

theorem withNodes_eq {t : HashTable} (hrel : t.released = g.nodes.released) :
    g.withNodes t = some { g with nodes := t } := by
  rw [withNodes, hrel, List.drop_length]
  rfl

/-- The heap after a node was stored under a label: the new node is there, and the node
that had the label is not. -/
structure Stored (heap : Heap GraphNode) (label : Key) (fresh : GraphNode)
    (heap' : Heap GraphNode) : Prop where
  new : heap' heap.brk = some fresh
  gone : ∀ node n, heap node = some n → n.label = label → heap' node = none
  kept : ∀ node n, heap node = some n → n.label ≠ label → heap' node = some n
  only : ∀ node n, heap' node = some n →
    (node = heap.brk ∧ n = fresh) ∨ heap node = some n ∧ n.label ≠ label

variable {heap : Heap GraphNode} {fresh : GraphNode}

theorem ne_brk_of_eq_some (hn : heap node = some n) : node ≠ heap.brk :=
  Nat.ne_of_lt (Heap.lt_brk_of_eq_some hn)

theorem Stored.of_unused (hnone : ∀ node n, heap node = some n → n.label ≠ label) :
    Stored heap label fresh (heap.alloc fresh).1 := by
  constructor
  · rw [Heap.alloc_apply, if_pos rfl]
  · intro node n hn heq
    exact absurd heq (hnone node n hn)
  · intro node n hn _
    rw [Heap.alloc_apply, if_neg (ne_brk_of_eq_some hn), hn]
  · intro node n hn
    by_cases hbrk : node = heap.brk
    · rw [Heap.alloc_apply, if_pos hbrk] at hn
      exact Or.inl ⟨hbrk, (Option.some.inj hn).symm⟩
    · rw [Heap.alloc_apply, if_neg hbrk] at hn
      exact Or.inr ⟨hn, hnone node n hn⟩

/-- One node had the label, and is destroyed. -/
theorem Stored.of_replaced {old : Addr} {o : GraphNode} (ho : heap old = some o)
    (holabel : o.label = label)
    (honly : ∀ node n, heap node = some n → n.label = label → node = old) :
    Stored heap label fresh ((heap.alloc fresh).1.kill old) := by
  have hold : old ≠ heap.brk := ne_brk_of_eq_some ho
  constructor
  · rw [Heap.kill_apply, if_neg (Ne.symm hold), Heap.alloc_apply, if_pos rfl]
  · intro node n hn heq
    rw [Heap.kill_apply, if_pos (honly node n hn heq)]
  · intro node n hn hne
    have hnode : node ≠ old := by
      rintro rfl
      rw [ho] at hn
      cases hn
      exact hne holabel
    rw [Heap.kill_apply, if_neg hnode, Heap.alloc_apply, if_neg (ne_brk_of_eq_some hn), hn]
  · intro node n hn
    rw [Heap.kill_apply] at hn
    by_cases hnode : node = old
    · rw [if_pos hnode] at hn
      cases hn
    · rw [if_neg hnode, Heap.alloc_apply] at hn
      by_cases hbrk : node = heap.brk
      · rw [if_pos hbrk] at hn
        exact Or.inl ⟨hbrk, (Option.some.inj hn).symm⟩
      · rw [if_neg hbrk] at hn
        exact Or.inr ⟨hn, fun heq => hnode (honly node n hn heq)⟩

/-- The table that holds the new node under its label fits the heap. -/
theorem Registers.of_stored {g' : Graph} {brk : ℕ} (fresh : GraphNode) (h : Registers g s)
    (htable : Simulates g'.nodes ⟨s.map.insert fresh.label (nodeValue g.heap.brk), brk⟩)
    (hcb : g'.nodes.freeItemCb = true) (hstored : Stored g.heap fresh.label fresh g'.heap) :
    Registers g' ⟨s.map.insert fresh.label (nodeValue g.heap.brk), brk⟩ := by
  refine ⟨htable, hcb, ?_⟩
  intro label v
  by_cases heq : label = fresh.label
  · rw [heq, Finmap.lookup_insert]
    constructor
    · intro hv
      exact ⟨g.heap.brk, fresh, hstored.new, rfl, (Option.some.inj hv).symm⟩
    · rintro ⟨node, n, hn, hl, rfl⟩
      rcases hstored.only node n hn with ⟨rfl, -⟩ | ⟨-, hne⟩
      · rfl
      · exact absurd hl hne
  · rw [Finmap.lookup_insert_of_ne _ heq, h.found label v]
    constructor
    · rintro ⟨node, n, hn, rfl, hv⟩
      exact ⟨node, n, hstored.kept node n hn heq, rfl, hv⟩
    · rintro ⟨node, n, hn, rfl, hv⟩
      rcases hstored.only node n hn with ⟨-, rfl⟩ | ⟨hn', -⟩
      · exact absurd rfl heq
      · exact ⟨node, n, hn', rfl, hv⟩

/-- The node `graph_node_add` makes. -/
def freshNode (label : Key) (value : Option Addr) (vlen : ℕ) : GraphNode where
  label := label
  value := value
  vlen := vlen
  connections := []

/-- `graph_node_add` under a proper label registers a new node there. -/
theorem graphNodeAdd_eq (h : Registers g s) (hlabel : label ≠ []) (value : Option Addr)
    (vsize : ℕ) :
    ∃ g' s', g.graphNodeAdd (some label) value vsize = some (g', some g.heap.brk) ∧
      Registers g' s' ∧ Stored g.heap label (freshNode label value vsize) g'.heap := by
  let v := nodeValue g.heap.brk
  let g₁ : Graph := { g with heap := (g.heap.alloc (freshNode label value vsize)).1 }
  have hnew : newItemData g.nodes.brk (some v.data) v.size false =
      some (s.brk, some v.data) := by
    rw [← h.table.brk]
    rfl
  obtain ⟨t, hset, hsim, hsucc, hrel⟩ := h.table.htSetInternal_eq hlabel v v rfl hnew hnew
    false false false fun _ => rfl
  have hset' : g₁.nodes.htSet label (some (nodeData g.heap.brk)) sizeofNode =
      some (t, (mapSet s.map label v false false false).2) := hset
  have hmap : mapSet s.map label v false false false =
      (s.map.insert label v, report 0 false false (s.map.lookup label)) := by
    simp [mapSet]
  rw [hmap] at hsim hset'
  have hcb : t.freeItemCb = true := hsucc.freeItemCb.trans h.destroys
  have hrun : ∀ g', g₁.withNodes t = some g' →
      g.graphNodeAdd (some label) value vsize = some (g', some g.heap.brk) := by
    intro g' hg'
    have hcreate : g.graphNodeCreate (some label) value vsize = (g₁, some g.heap.brk) := rfl
    simp [graphNodeAdd, hcreate, hset', hg', report]
  cases hl : s.map.lookup label with
  | none =>
      have hstored : Stored g.heap label (freshNode label value vsize) g₁.heap := by
        apply Stored.of_unused
        rintro node n hn rfl
        rw [h.lookup hn] at hl
        cases hl
      have hrel' : t.released = g₁.nodes.released := by
        simp [hrel, hl, releases, g₁]
      refine ⟨{ g₁ with nodes := t }, ⟨s.map.insert label v, s.brk⟩,
        hrun _ (withNodes_eq hrel'), ?_, hstored⟩
      exact Registers.of_stored (freshNode label value vsize) h hsim hcb hstored
  | some old =>
      obtain ⟨old, o, ho, holabel, rfl⟩ := (h.found label old).mp hl
      have ho₁ : ({ g₁ with nodes := t } : Graph).heap old = some o := by
        show (g.heap.alloc _).1 old = some o
        rw [Heap.alloc_apply, if_neg (ne_brk_of_eq_some ho), ho]
      obtain ⟨g', hdestroy, hheap, rfl⟩ := graphNodeDestroy_eq ho₁
      have hwith : g₁.withNodes g'.nodes = some g' := by
        have hdrop : g'.nodes.released.drop g₁.nodes.released.length =
            [some (nodeData old)] := by
          simp [hrel, hl, releases, g₁, h.destroys, nodeValue]
        rw [withNodes, hdrop, runFreeItemCb, List.foldlM_cons]
        show (graphNodeDestroy _ old).bind _ = _
        rw [hdestroy]
        rfl
      have hstored : Stored g.heap label (freshNode label value vsize) g'.heap := by
        rw [hheap]
        exact Stored.of_replaced ho holabel fun node n hn heq =>
          h.label_unique hn ho (heq.trans holabel.symm)
      refine ⟨g', ⟨s.map.insert label v, s.brk⟩, hrun g' hwith, ?_, hstored⟩
      exact Registers.of_stored (freshNode label value vsize) h hsim hcb hstored

/-- An empty label is refused; the node that was made is destroyed again. -/
theorem graphNodeAdd_nil (h : Registers g s) (value : Option Addr) (vsize : ℕ) :
    ∃ g', g.graphNodeAdd (some []) value vsize = some (g', none) ∧ Registers g' s ∧
      ∀ node, g'.heap node = g.heap node := by
  let g₁ : Graph := { g with heap := (g.heap.alloc (freshNode [] value vsize)).1 }
  have hset : g₁.nodes.htSet [] (some (nodeData g.heap.brk)) sizeofNode =
      some (g.nodes, { ret := -1, prevData := none, prevLen := none }) := rfl
  have hcreate : g.graphNodeCreate (some []) value vsize = (g₁, some g.heap.brk) := rfl
  have hwith : g₁.withNodes g.nodes = some g₁ := withNodes_eq rfl
  have hnode : ({ g₁ with errno := eGraphTableErr } : Graph).heap g.heap.brk =
      some (freshNode [] value vsize) := by
    show (g.heap.alloc _).1 g.heap.brk = _
    rw [Heap.alloc_apply, if_pos rfl]
  obtain ⟨g', hdestroy, hheap, hnodes⟩ := graphNodeDestroy_eq hnode
  have hcells : ∀ node, g'.heap node = g.heap node := by
    intro node
    rw [hheap, Heap.kill_apply]
    by_cases hbrk : node = g.heap.brk
    · rw [if_pos hbrk, hbrk, Heap.brk_apply]
    · rw [if_neg hbrk]
      show (g.heap.alloc _).1 node = _
      rw [Heap.alloc_apply, if_neg hbrk]
  refine ⟨g', ?_, ?_, hcells⟩
  · simp [graphNodeAdd, hcreate, hset, hwith, hdestroy]
  · have hnodes' : g'.nodes = g.nodes := hnodes
    refine h.of_sameThrough (hnodes' ▸ h.table) (hnodes' ▸ h.destroys) ?_
    intro node
    rw [hcells]

theorem graphNodeGet_eq (h : Registers g s) (label : Key) :
    ∃ g' r, g.graphNodeGet label = some (g', r) ∧ Registers g' s ∧ g'.heap = g.heap ∧
      ∀ node, r = some node ↔ g.graphNodeLabelGet node = some label := by
  obtain ⟨t, hget, hsim, hsucc, hrel⟩ := h.table.htGet_eq label false
  refine ⟨{ g with nodes := t }, ((s.map.lookup label).map fun v => v.data).map Data.addr,
    ?_, ?_, rfl, ?_⟩
  · simp [graphNodeGet, hget, withNodes_eq hrel]
  · exact h.of_sameThrough hsim (hsucc.freeItemCb.trans h.destroys) (Heap.SameThrough.refl _)
  · intro node
    rw [graphNodeLabelGet, Option.map_map, Option.map_eq_some_iff, Option.map_eq_some_iff]
    constructor
    · rintro ⟨v, hv, rfl⟩
      obtain ⟨node, n, hn, hl, rfl⟩ := (h.found label v).mp hv
      exact ⟨n, hn, hl⟩
    · rintro ⟨n, hn, rfl⟩
      exact ⟨nodeValue node, h.lookup hn, rfl⟩

/-- Change the connections of a node. -/
theorem Registers.setConnections (h : Registers g s) (hn : g.heap node = some n)
    (connections : List Connection) :
    Registers { g with heap := g.heap.put node { n with connections := connections } } s :=
  h.of_sameThrough h.table h.destroys (Heap.sameThrough_put hn rfl)

end Graph
end LibHL
