import LibHL.Graph.Invariant
import LibHL.Support.Run

/-!
# Connections and the nodes they lead to

A node that loses its label to a new one is destroyed while other nodes may still be
connected to it.  As long as no other node is, connections lead to live nodes.
-/

namespace LibHL
namespace Graph

open HashTable

/-! ## Dangling connections -/

/-- Every connection of every registered node leads to a node that has not been
destroyed. -/
def NoDangling (g : Graph) : Prop :=
  ∀ node, Registered g node → ∃ n, g.heap node = some n ∧
    ∀ c ∈ n.connections, (g.heap c.destination).isSome

/-- No node with another label has a connection to a node with this label. -/
def Unreferenced (g : Graph) (label : Key) : Prop :=
  ∀ node ∈ g.heap.live, ∀ n ∈ g.heap node, n.label ≠ label →
    ∀ c ∈ n.connections, ∀ o ∈ g.heap c.destination, o.label ≠ label

instance (g : Graph) (label : Key) : Decidable (Unreferenced g label) :=
  inferInstanceAs (Decidable (∀ node ∈ g.heap.live, ∀ n ∈ g.heap node, n.label ≠ label →
    ∀ c ∈ n.connections, ∀ o ∈ g.heap c.destination, o.label ≠ label))

variable {g : Graph} {s : MapState} {node : Addr} {n : GraphNode} {label : Key}

namespace Registers

theorem noDangling_iff (h : Registers g s) : NoDangling g ↔
    ∀ node n, g.heap node = some n → ∀ c ∈ n.connections, (g.heap c.destination).isSome := by
  constructor
  · intro hno node n hn
    have hreg : Registered g node := h.registered_iff.mpr (by rw [hn]; rfl)
    obtain ⟨n', hn', hconn⟩ := hno node hreg
    rw [hn] at hn'
    rwa [Option.some.inj hn']
  · intro hconn node hreg
    obtain ⟨n, hn⟩ := Option.isSome_iff_exists.mp (h.registered_iff.mp hreg)
    exact ⟨n, hn, hconn node n hn⟩

/-- Adding a node under a label leaves no connection dangling exactly if no other node is
connected to the node that has the label. -/
theorem graphNodeAdd_noDangling_iff (h : Registers g s) (hno : NoDangling g) (label : Key)
    (value : Option Addr) (vsize : ℕ) :
    ∃ g' s' r, g.graphNodeAdd (some label) value vsize = some (g', r) ∧ Registers g' s' ∧
      (NoDangling g' ↔ Unreferenced g label) := by
  have hlive := h.noDangling_iff.mp hno
  by_cases hlabel : label = []
  · subst hlabel
    obtain ⟨g', hrun, h', hcells⟩ := graphNodeAdd_nil h value vsize
    refine ⟨g', s, none, hrun, h', ?_⟩
    constructor
    · intro _ node _ n _ _ c _ o ho
      exact h.label_ne_nil ho
    · intro _
      apply h'.noDangling_iff.mpr
      intro node n hn c hc
      rw [hcells] at hn ⊢
      exact hlive node n hn c hc
  · obtain ⟨g', s', hrun, h', hstored⟩ := graphNodeAdd_eq h hlabel value vsize
    refine ⟨g', s', some g.heap.brk, hrun, h', ?_⟩
    rw [h'.noDangling_iff]
    constructor
    · intro hlive' node _ n hn hne c hc o ho heq
      have hdest := hlive' node n (hstored.kept node n hn hne) c hc
      rw [hstored.gone c.destination o ho heq] at hdest
      cases hdest
    · intro hunref node n hn c hc
      rcases hstored.only node n hn with ⟨-, rfl⟩ | ⟨hn', hne⟩
      · cases hc
      · obtain ⟨o, ho⟩ := Option.isSome_iff_exists.mp (hlive node n hn' c hc)
        have holabel : o.label ≠ label :=
          hunref node (Heap.mem_live_of_eq_some hn') n hn' hne c hc o ho
        rw [hstored.kept c.destination o ho holabel]
        rfl

/-- Changing the connections of a node to ones that lead to live nodes. -/
theorem setConnections_noDangling (h : Registers g s) (hno : NoDangling g)
    (hn : g.heap node = some n) {connections : List Connection}
    (hconn : ∀ c ∈ connections, (g.heap c.destination).isSome) :
    NoDangling { g with heap := g.heap.put node { n with connections := connections } } := by
  have hlive := h.noDangling_iff.mp hno
  have hsome : ∀ {a}, (g.heap a).isSome →
      ((g.heap.put node { n with connections := connections }) a).isSome := by
    intro a ha
    rwa [← Heap.mem_live, Heap.live_put, Heap.mem_live]
  apply (h.setConnections hn connections).noDangling_iff.mpr
  intro node' n' hn' c hc
  have hn'' : (g.heap.put node { n with connections := connections }) node' = some n' := hn'
  apply hsome
  by_cases heq : node' = node
  · rw [heq, Heap.put_self hn] at hn''
    rw [← Option.some.inj hn''] at hc
    exact hconn c hc
  · rw [Heap.put_of_ne heq] at hn''
    exact hlive node' n' hn'' c hc

theorem graphNodeConnect_noDangling (h : Registers g s) (hno : NoDangling g) {node2 : Addr}
    (hn : g.heap node = some n) (hnode2 : (g.heap node2).isSome)
    (chooser context : Option Addr) :
    ∃ g', g.graphNodeConnect node node2 chooser context = some (g', 0) ∧ Registers g' s ∧
      NoDangling g' := by
  let connections := n.connections ++
    [{ destination := node2, chooser := chooser, context := context }]
  refine ⟨{ g with heap := g.heap.put node { n with connections := connections } }, ?_,
    h.setConnections hn connections, ?_⟩
  · rw [graphNodeConnect, Heap.modify_eq_some _ hn]
    rfl
  · apply h.setConnections_noDangling hno hn
    intro c hc
    rcases List.mem_append.mp hc with hc | hc
    · exact h.noDangling_iff.mp hno node n hn c hc
    · rw [List.mem_singleton.mp hc]
      exact hnode2

theorem graphNodeDisconnect_noDangling (h : Registers g s) (hno : NoDangling g)
    (hn : g.heap node = some n) (node2 : Addr) :
    ∃ g' ret, g.graphNodeDisconnect node node2 = some (g', ret) ∧ Registers g' s ∧
      NoDangling g' := by
  by_cases hany : n.connections.any fun c => c.destination = node2
  · let connections := n.connections.eraseP fun c => c.destination = node2
    refine ⟨{ g with heap := g.heap.put node { n with connections := connections } }, 0, ?_,
      h.setConnections hn connections, ?_⟩
    · rw [graphNodeDisconnect, hn]
      show (if _ then _ else _) = _
      rw [if_pos hany, Heap.modify_eq_some _ hn]
      rfl
    · apply h.setConnections_noDangling hno hn
      intro c hc
      exact h.noDangling_iff.mp hno node n hn c (List.mem_of_mem_eraseP hc)
  · refine ⟨{ g with errno := eGraphConnectionNotFound }, -1, ?_,
      h.of_sameThrough h.table h.destroys (Heap.SameThrough.refl _), hno⟩
    rw [graphNodeDisconnect, hn]
    show (if _ then _ else _) = _
    rw [if_neg hany]

end Registers

/-! ## What the callers see -/

variable {nodes : List Addr}

theorem considerConnection_selected (answers : ChooserAnswers) (node : Addr) (s : Selection)
    (c : Connection) : (considerConnection answers node s c).selected = s.selected ∨
      (considerConnection answers node s c).selected = some c.destination := by
  cases hc : c.chooser with
  | none =>
      by_cases hw : s.weight = 0
      · simp [considerConnection, hc, hw]
      · simp [considerConnection, hc, hw]
  | some f =>
      simp only [considerConnection, hc]
      split
      · exact Or.inr rfl
      · exact Or.inl rfl

/-- The loop selects nothing or the destination of a connection it went over. -/
theorem selected_of_foldl (answers : ChooserAnswers) (node : Addr) (cs : List Connection) :
    ∀ s : Selection, (cs.foldl (considerConnection answers node) s).selected = s.selected ∨
      ∃ c ∈ cs, (cs.foldl (considerConnection answers node) s).selected = some c.destination := by
  induction cs with
  | nil => exact fun s => Or.inl rfl
  | cons c cs ih =>
      intro s
      rw [List.foldl_cons]
      rcases ih (considerConnection answers node s c) with heq | ⟨d, hd, heq⟩
      · rcases considerConnection_selected answers node s c with hsame | hdest
        · exact Or.inl (heq.trans hsame)
        · exact Or.inr ⟨c, List.mem_cons_self, heq.trans hdest⟩
      · exact Or.inr ⟨d, List.mem_cons_of_mem _ hd, heq⟩

theorem mem_storeConnections {maxConnections : ℤ} {a : Addr} :
    ∀ {cs : List Connection} {i : ℤ}, a ∈ storeConnections maxConnections i cs →
      ∃ c ∈ cs, c.destination = a := by
  intro cs
  induction cs with
  | nil =>
      intro i ha
      cases ha
  | cons c cs ih =>
      intro i ha
      rw [storeConnections] at ha
      by_cases hmax : i = maxConnections
      · rw [if_pos hmax] at ha
        cases ha
      · rw [if_neg hmax] at ha
        rcases List.mem_cons.mp ha with rfl | ha
        · exact ⟨c, List.mem_cons_self, rfl⟩
        · obtain ⟨d, hd, hda⟩ := ih ha
          exact ⟨d, List.mem_cons_of_mem _ hd, hda⟩

/-- The node that follows a registered one, and the nodes it is connected to, are live. -/
def FollowsLive (g : Graph) (node : Addr) : Prop :=
  (∀ answers, ∃ r, g.graphNodeNext answers node = some r ∧ ∀ a ∈ r, (g.heap a).isSome) ∧
    ∀ connections max, ∃ ds, g.graphNodeConnectionsGet node connections max = some ds ∧
      ∀ a ∈ ds, (g.heap a).isSome

theorem NoDangling.followsLive (hno : NoDangling g) (hreg : Registered g node) :
    FollowsLive g node := by
  obtain ⟨n, hn, hconn⟩ := hno node hreg
  constructor
  · intro answers
    refine ⟨_, by rw [graphNodeNext, hn]; rfl, ?_⟩
    intro a ha
    rcases selected_of_foldl answers node n.connections ⟨[], 0, none⟩ with heq | ⟨c, hc, heq⟩
    · rw [heq] at ha
      cases ha
    · rw [heq] at ha
      cases ha
      exact hconn c hc
  · intro connections max
    cases connections with
    | false => exact ⟨[], rfl, nofun⟩
    | true =>
        refine ⟨storeConnections max 0 n.connections, ?_, ?_⟩
        · rw [graphNodeConnectionsGet, if_pos rfl, hn]
          rfl
        · intro a ha
          obtain ⟨c, hc, rfl⟩ := mem_storeConnections ha
          exact hconn c hc

/-! ## Runs -/

/-- The calls on a graph, with its nodes as arguments. -/
inductive GraphOp where
  | add (label : Key) (value : Option Addr) (vsize : ℕ)
  | connect (node1 node2 : Addr) (chooser context : Option Addr)
  | disconnect (node1 node2 : Addr)
  | delete (label : Key) (connections : Bool) (maxConnections : ℤ)
  | get (label : Key)

/-- What a call returns. -/
inductive GraphOut where
  | node (r : Option Addr)
  | code (ret : ℤ)
  | nodes (ret : ℤ) (stored : List Addr)
  deriving DecidableEq

/-- Perform a call. -/
def stepGraph (g : Graph) : GraphOp → Option (Graph × GraphOut)
  | .add label value vsize =>
      (g.graphNodeAdd (some label) value vsize).map fun r => (r.1, .node r.2)
  | .connect node1 node2 chooser context =>
      (g.graphNodeConnect node1 node2 chooser context).map fun r => (r.1, .code r.2)
  | .disconnect node1 node2 =>
      (g.graphNodeDisconnect node1 node2).map fun r => (r.1, .code r.2)
  | .delete label connections maxConnections =>
      (g.graphNodeDelete (some label) connections maxConnections).map
        fun r => (r.1, .nodes r.2.1 r.2.2)
  | .get label => (g.graphNodeGet label).map fun r => (r.1, .node r.2)

/-- Connections are made and removed at nodes of the graph. -/
def Proper (g : Graph) : GraphOp → Prop
  | .connect node1 node2 _ _ => Registered g node1 ∧ Registered g node2
  | .disconnect node1 _ => Registered g node1
  | _ => True

instance (g : Graph) : ∀ op, Decidable (Proper g op)
  | .add .. => isTrue trivial
  | .connect node1 node2 _ _ =>
      inferInstanceAs (Decidable (Registered g node1 ∧ Registered g node2))
  | .disconnect node1 _ => inferInstanceAs (Decidable (Registered g node1))
  | .delete .. => isTrue trivial
  | .get _ => isTrue trivial

/-- A new node takes over a label only if no other node is connected to the one that has
it, and nothing is deleted. -/
def Harmless (g : Graph) : GraphOp → Prop
  | .add label _ _ => Unreferenced g label
  | .delete .. => False
  | _ => True

instance (g : Graph) : ∀ op, Decidable (Harmless g op)
  | .add label _ _ => inferInstanceAs (Decidable (Unreferenced g label))
  | .connect .. => isTrue trivial
  | .disconnect .. => isTrue trivial
  | .delete .. => isFalse id
  | .get _ => isTrue trivial

theorem graphNodeDelete_eq_none (g : Graph) (label : Option Key) (connections : Bool)
    (maxConnections : ℤ) : g.graphNodeDelete label connections maxConnections = none := rfl

/-- A proper and harmless call succeeds and leaves no connection dangling. -/
theorem Registers.stepGraph_noDangling (h : Registers g s) (hno : NoDangling g) (op : GraphOp)
    (hproper : Proper g op) (hharmless : Harmless g op) :
    ∃ g' o s', stepGraph g op = some (g', o) ∧ Registers g' s' ∧ NoDangling g' := by
  cases op with
  | add label value vsize =>
      obtain ⟨g', s', r, hrun, h', hiff⟩ := h.graphNodeAdd_noDangling_iff hno label value vsize
      exact ⟨g', .node r, s', by rw [stepGraph, hrun]; rfl, h', hiff.mpr hharmless⟩
  | connect node1 node2 chooser context =>
      obtain ⟨n, hn⟩ := Option.isSome_iff_exists.mp (h.registered_iff.mp hproper.1)
      obtain ⟨g', hrun, h', hno'⟩ := h.graphNodeConnect_noDangling hno hn
        (h.registered_iff.mp hproper.2) chooser context
      exact ⟨g', .code 0, s, by rw [stepGraph, hrun]; rfl, h', hno'⟩
  | disconnect node1 node2 =>
      obtain ⟨n, hn⟩ := Option.isSome_iff_exists.mp (h.registered_iff.mp hproper)
      obtain ⟨g', ret, hrun, h', hno'⟩ := h.graphNodeDisconnect_noDangling hno hn node2
      exact ⟨g', .code ret, s, by rw [stepGraph, hrun]; rfl, h', hno'⟩
  | delete label connections maxConnections => exact hharmless.elim
  | get label =>
      obtain ⟨g', r, hrun, h', hheap, -⟩ := graphNodeGet_eq h label
      refine ⟨g', .node r, s, by rw [stepGraph, hrun]; rfl, h', ?_⟩
      apply h'.noDangling_iff.mpr
      rw [hheap]
      exact h.noDangling_iff.mp hno

/-- In every run of proper and harmless calls on a new graph, no connection of a registered
node dangles, and following connections leads to live nodes. -/
theorem connections_never_dangle {name : Option Key} {cb : Bool} {seed : UInt32} {g₀ : Graph}
    (hcreate : graphCreate name cb seed = some g₀) (ops : List GraphOp)
    (hmeet : StepsMeet stepGraph (fun g op => Proper g op ∧ Harmless g op) g₀ ops) :
    ∃ g outs, runSteps stepGraph g₀ ops = some (g, outs) ∧ NoDangling g ∧
      ∀ node, Registered g node → FollowsLive g node := by
  have hstep : ∀ g op, (∃ s, Registers g s ∧ NoDangling g) → (Proper g op ∧ Harmless g op) →
      ∃ g' o, stepGraph g op = some (g', o) ∧ ∃ s, Registers g' s ∧ NoDangling g' := by
    rintro g op ⟨s, h, hno⟩ ⟨hproper, hharmless⟩
    obtain ⟨g', o, s', hrun, h', hno'⟩ := h.stepGraph_noDangling hno op hproper hharmless
    exact ⟨g', o, hrun, s', h', hno'⟩
  have h₀ := Registers.create hcreate
  have hempty : g₀.heap = Heap.empty := by
    rw [graphCreate] at hcreate
    obtain ⟨t, -, heq⟩ := Option.bind_eq_some_iff.mp hcreate
    cases heq
    rfl
  have hno₀ : NoDangling g₀ := by
    apply h₀.noDangling_iff.mpr
    intro node n hn
    rw [hempty] at hn
    cases hn
  obtain ⟨g, outs, hrun, s, h, hno⟩ := runSteps_keeps hstep ops g₀ ⟨⟨∅, 0⟩, h₀, hno₀⟩ hmeet
  exact ⟨g, outs, hrun, hno, fun node hreg => hno.followsLive hreg⟩

/-- A run in which a label is taken over twice, once from a node that only has a
connection to itself. -/
def takeoverRun : List GraphOp :=
  [.add [97] none 0, .add [98] none 0, .connect 0 0 none none, .add [97] none 0,
    .connect 1 2 none none, .disconnect 1 2, .add [97] none 0]

theorem connections_never_dangle_takeoverRun :
    ∃ g₀ g outs, graphCreate none true 7 = some g₀ ∧
      runSteps stepGraph g₀ takeoverRun = some (g, outs) ∧ NoDangling g ∧
      ∀ node, Registered g node → FollowsLive g node := by
  have hmeet : (graphCreate none true 7).map (fun g₀ => decide
      (StepsMeet stepGraph (fun g op => Proper g op ∧ Harmless g op) g₀ takeoverRun)) =
        some true := by
    decide
  obtain ⟨g₀, hcreate, hdec⟩ := Option.map_eq_some_iff.mp hmeet
  obtain ⟨g, outs, hrun⟩ := connections_never_dangle hcreate takeoverRun (of_decide_eq_true hdec)
  exact ⟨g₀, g, outs, hcreate, hrun⟩

/-- A label that is used twice, while another node is connected to the first one. -/
def reusedRun : List GraphOp :=
  [.add [97] none 0, .add [98] none 0, .connect 0 1 none none, .add [98] none 0]

/-- A run of proper calls, without a deletion, can leave a dangling connection. -/
theorem reused_label_dangles : ¬ ∀ (name : Option Key) (cb : Bool) (seed : UInt32) (g₀ g : Graph)
    (ops : List GraphOp) (outs : List GraphOut), graphCreate name cb seed = some g₀ →
      StepsMeet stepGraph Proper g₀ ops → runSteps stepGraph g₀ ops = some (g, outs) →
      NoDangling g ∧ ∀ node, Registered g node → FollowsLive g node := by
  intro hall
  have hrun : (graphCreate none false 7).bind (fun g₀ =>
      if StepsMeet stepGraph Proper g₀ reusedRun then
        (runSteps stepGraph g₀ reusedRun).map fun r =>
          (decide (Registered r.1 0), (r.1.heap 0).map GraphNode.connections, r.1.heap 1)
      else none) = some (true, some [⟨1, none, none⟩], none) := by
    decide
  obtain ⟨g₀, hcreate, hrun⟩ := Option.bind_eq_some_iff.mp hrun
  obtain ⟨hmeet, hrun⟩ := Option.ite_none_right_eq_some.mp hrun
  obtain ⟨⟨g, outs⟩, hrun, heq⟩ := Option.map_eq_some_iff.mp hrun
  simp only [Prod.mk.injEq, decide_eq_true_eq] at heq
  obtain ⟨hreg, hconn, hdead⟩ := heq
  obtain ⟨hno, -⟩ := hall none false 7 g₀ g reusedRun outs hcreate hmeet hrun
  obtain ⟨n, hn, hlive⟩ := hno 0 hreg
  rw [hn] at hconn
  have hconn' : n.connections = [⟨1, none, none⟩] := Option.some.inj hconn
  have hdest := hlive ⟨1, none, none⟩ (by rw [hconn']; exact List.mem_singleton_self _)
  rw [hdead] at hdest
  cases hdest

end Graph
end LibHL
