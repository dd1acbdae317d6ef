import LibHL.Graph.Invariant
import Mathlib.Data.List.Pairwise

/-!
# The connection that is followed

`graph_node_next` goes once over the connections of a node.  It follows the first connection
with the greatest positive weight, and the last one without a chooser if no weight is positive.
-/

namespace LibHL
namespace Graph

/-! ## Weights -/

/-- A destination with the weight that the chooser of its connection answered, if it has one. -/
structure Weighed where
  destination : Addr
  weight : Option ℤ
  deriving DecidableEq

/-- The connections of a node with their weights.  The choosers are called in turn, and each
answer may depend on the calls before it. -/
def weighed (answers : ChooserAnswers) (node : Addr) :
    List ChooserCall → List Connection → List Weighed
  | _, [] => []
  | calls, c :: cs =>
      match c.chooser with
      | some chooser =>
          let calls := calls ++ [{ chooser := chooser, node := node, context := c.context }]
          ⟨c.destination, some (answers calls)⟩ :: weighed answers node calls cs
      | none => ⟨c.destination, none⟩ :: weighed answers node calls cs

/-- One round of the loop, as far as weights and destinations are concerned. -/
def considerWeighed (s : ℤ × Option Addr) (v : Weighed) : ℤ × Option Addr :=
  match v.weight with
  | some w => if w > s.1 then (w, some v.destination) else s
  | none => if s.1 = 0 then (s.1, some v.destination) else s

/-- The loop depends on the connections through their destinations and weights only. -/
theorem foldl_considerConnection (answers : ChooserAnswers) (node : Addr)
    (cs : List Connection) : ∀ s : Selection,
    ((cs.foldl (considerConnection answers node) s).weight,
        (cs.foldl (considerConnection answers node) s).selected) =
      (weighed answers node s.calls cs).foldl considerWeighed (s.weight, s.selected) := by
  induction cs with
  | nil => exact fun s => rfl
  | cons c cs ih =>
      intro s
      rw [List.foldl_cons, ih, weighed]
      cases hc : c.chooser with
      | none =>
          simp only [considerConnection, hc, List.foldl_cons, considerWeighed]
          split <;> rfl
      | some chooser =>
          simp only [considerConnection, hc, List.foldl_cons, considerWeighed]
          split <;> rfl

/-! ## The choice -/

/-- No weight is positive. -/
def NonePositive (ws : List Weighed) : Prop := ∀ v ∈ ws, ∀ w ∈ v.weight, w ≤ 0

/-- The destination that is chosen among weighed connections, with the weight that decides. -/
inductive Chosen (ws : List Weighed) : ℤ × Option Addr → Prop where
  | greatest (before : List Weighed) (d : Addr) (w : ℤ) (after : List Weighed)
      (hsplit : ws = before ++ ⟨d, some w⟩ :: after) (hpos : 0 < w)
      (hbefore : ∀ v ∈ before, ∀ x ∈ v.weight, x < w)
      (hafter : ∀ v ∈ after, ∀ x ∈ v.weight, x ≤ w) : Chosen ws (w, some d)
  | unconditional (before : List Weighed) (d : Addr) (after : List Weighed)
      (hsplit : ws = before ++ ⟨d, none⟩ :: after) (hnone : NonePositive ws)
      (hafter : ∀ v ∈ after, v.weight ≠ none) : Chosen ws (0, some d)
  | nothing (hnone : NonePositive ws) (hall : ∀ v ∈ ws, v.weight ≠ none) : Chosen ws (0, none)

/-- The destination that `graph_node_next` is to return. -/
def Selects (ws : List Weighed) (d : Option Addr) : Prop := ∃ w, Chosen ws (w, d)

variable {ws ws' : List Weighed} {s s' : ℤ × Option Addr} {v : Weighed} {w : ℤ}

theorem forall_mem_concat {p : Weighed → Prop} (h : ∀ u ∈ ws, p u) (hv : p v) :
    ∀ u ∈ ws ++ [v], p u := by
  intro u hu
  rcases List.mem_append.mp hu with hu | hu
  · exact h u hu
  · rwa [List.mem_singleton.mp hu]

namespace Chosen

theorem le_weight (h : Chosen ws s) : 0 ≤ s.1 ∧ ∀ u ∈ ws, ∀ x ∈ u.weight, x ≤ s.1 := by
  cases h with
  | greatest before d w after hsplit hpos hbefore hafter =>
      refine ⟨Int.le_of_lt hpos, fun u hu x hx => ?_⟩
      rw [hsplit] at hu
      rcases List.mem_append.mp hu with hu | hu
      · exact Int.le_of_lt (hbefore u hu x hx)
      rcases List.mem_cons.mp hu with rfl | hu
      · exact Int.le_of_eq (Option.some.inj hx).symm
      · exact hafter u hu x hx
  | unconditional before d after hsplit hnone hafter => exact ⟨Int.le_refl 0, hnone⟩
  | nothing hnone hall => exact ⟨Int.le_refl 0, hnone⟩

theorem concat_greater (h : Chosen ws s) (hv : v.weight = some w) (hgt : s.1 < w) :
    Chosen (ws ++ [v]) (w, some v.destination) := by
  obtain ⟨hnonneg, hle⟩ := h.le_weight
  have hval : v = ⟨v.destination, some w⟩ := by
    rw [← hv]
  refine .greatest ws v.destination w [] (by rw [← hval]) (Int.lt_of_le_of_lt hnonneg hgt) ?_ nofun
  exact fun u hu x hx => Int.lt_of_le_of_lt (hle u hu x hx) hgt

theorem concat_le (h : Chosen ws s) (hv : v.weight = some w) (hle : w ≤ s.1) :
    Chosen (ws ++ [v]) s := by
  have hbound : ∀ x ∈ v.weight, x ≤ s.1 := by
    intro x hx
    rw [hv] at hx
    rwa [← Option.some.inj hx]
  have hsome : v.weight ≠ none := by
    rw [hv]
    exact Option.some_ne_none w
  cases h with
  | greatest before d x after hsplit hpos hbefore hafter =>
      refine .greatest before d x (after ++ [v]) ?_ hpos hbefore (forall_mem_concat hafter hbound)
      rw [hsplit, List.append_assoc, List.cons_append]
  | unconditional before d after hsplit hnone hafter =>
      refine .unconditional before d (after ++ [v]) ?_ (forall_mem_concat hnone hbound)
        (forall_mem_concat hafter hsome)
      rw [hsplit, List.append_assoc, List.cons_append]
  | nothing hnone hall =>
      exact .nothing (forall_mem_concat hnone hbound) (forall_mem_concat hall hsome)

theorem concat_unconditional (h : Chosen ws s) (hv : v.weight = none) (hzero : s.1 = 0) :
    Chosen (ws ++ [v]) (0, some v.destination) := by
  have hle := h.le_weight.2
  rw [hzero] at hle
  have hval : v = ⟨v.destination, none⟩ := by
    rw [← hv]
  refine .unconditional ws v.destination [] (by rw [← hval]) ?_ nofun
  refine forall_mem_concat hle fun x hx => ?_
  rw [hv] at hx
  cases hx

theorem concat_late (h : Chosen ws s) (hv : v.weight = none) (hne : s.1 ≠ 0) :
    Chosen (ws ++ [v]) s := by
  cases h with
  | greatest before d x after hsplit hpos hbefore hafter =>
      refine .greatest before d x (after ++ [v]) ?_ hpos hbefore (forall_mem_concat hafter ?_)
      · rw [hsplit, List.append_assoc, List.cons_append]
      · intro y hy
        rw [hv] at hy
        cases hy
  | unconditional before d after hsplit hnone hafter => exact absurd rfl hne
  | nothing hnone hall => exact absurd rfl hne

theorem considerWeighed (h : Chosen ws s) (v : Weighed) :
    Chosen (ws ++ [v]) (considerWeighed s v) := by
  cases hv : v.weight with
  | none =>
      by_cases hzero : s.1 = 0
      · rw [Graph.considerWeighed, hv]
        show Chosen _ (if _ then _ else _)
        rw [if_pos hzero, hzero]
        exact h.concat_unconditional hv hzero
      · rw [Graph.considerWeighed, hv]
        show Chosen _ (if _ then _ else _)
        rw [if_neg hzero]
        exact h.concat_late hv hzero
  | some w =>
      rw [Graph.considerWeighed, hv]
      show Chosen _ (if _ then _ else _)
      by_cases hgt : w > s.1
      · rw [if_pos hgt]
        exact h.concat_greater hv hgt
      · rw [if_neg hgt]
        exact h.concat_le hv (Int.not_lt.mp hgt)

end Chosen

theorem chosen_foldl (ws : List Weighed) : ∀ {before : List Weighed} {s : ℤ × Option Addr},
    Chosen before s → Chosen (before ++ ws) (ws.foldl considerWeighed s) := by
  induction ws with
  | nil =>
      intro before s h
      rwa [List.append_nil]
  | cons v ws ih =>
      intro before s h
      have hstep := ih (h.considerWeighed v)
      rwa [List.append_assoc, List.singleton_append] at hstep

/-! ## The order of the connections -/

/-- Two connections do not have the same positive weight. -/
def WeightsDiffer (u v : Weighed) : Prop := ∀ w, 0 < w → u.weight = some w → v.weight ≠ some w

/-- Two connections are not both without a chooser. -/
def OneHasChooser (u v : Weighed) : Prop := u.weight = none → v.weight ≠ none

instance : Std.Symm WeightsDiffer where
  symm _ _ huv w hpos hv hu := huv w hpos hu hv

instance : Std.Symm OneHasChooser where
  symm _ _ huv hv hu := huv hu hv

/-- The positive weights differ, and at most one connection has no chooser. -/
structure Unambiguous (ws : List Weighed) : Prop where
  positive : ws.Pairwise WeightsDiffer
  unconditional : ws.Pairwise OneHasChooser

namespace Unambiguous

variable {d d' : Addr}

theorem eq_of_weight (h : Unambiguous ws) (hd : ⟨d, some w⟩ ∈ ws) (hd' : ⟨d', some w⟩ ∈ ws)
    (hpos : 0 < w) : d = d' := by
  by_contra hne
  have hval : (⟨d, some w⟩ : Weighed) ≠ ⟨d', some w⟩ :=
    fun heq => hne (congrArg Weighed.destination heq)
  exact h.positive.forall hd hd' hval w hpos rfl rfl

theorem eq_of_none (h : Unambiguous ws) (hd : ⟨d, none⟩ ∈ ws) (hd' : ⟨d', none⟩ ∈ ws) :
    d = d' := by
  by_contra hne
  have hval : (⟨d, none⟩ : Weighed) ≠ ⟨d', none⟩ :=
    fun heq => hne (congrArg Weighed.destination heq)
  exact h.unconditional.forall hd hd' hval rfl rfl

end Unambiguous

theorem mem_of_split {before after : List Weighed} (hsplit : ws = before ++ v :: after) :
    v ∈ ws := by
  rw [hsplit]
  exact List.mem_append_right before List.mem_cons_self

namespace Chosen

/-- What is chosen is a connection with the weight that decides, or nothing. -/
theorem exists_mem (h : Chosen ws s) :
    (∃ d, s.2 = some d ∧ 0 < s.1 ∧ ⟨d, some s.1⟩ ∈ ws) ∨
      s.1 = 0 ∧ ((∃ d, s.2 = some d ∧ ⟨d, none⟩ ∈ ws) ∨
        s.2 = none ∧ ∀ v ∈ ws, v.weight ≠ none) := by
  cases h with
  | greatest before d w after hsplit hpos hbefore hafter =>
      exact Or.inl ⟨d, rfl, hpos, mem_of_split hsplit⟩
  | unconditional before d after hsplit hnone hafter =>
      exact Or.inr ⟨rfl, Or.inl ⟨d, rfl, mem_of_split hsplit⟩⟩
  | nothing hnone hall => exact Or.inr ⟨rfl, Or.inr ⟨rfl, hall⟩⟩

theorem weight_le_of_perm (h : Chosen ws s) (h' : Chosen ws' s') (hperm : ws'.Perm ws) :
    s.1 ≤ s'.1 := by
  obtain ⟨hnonneg, hle⟩ := h'.le_weight
  rcases h.exists_mem with ⟨d, -, -, hmem⟩ | ⟨hzero, -⟩
  · exact hle _ (hperm.mem_iff.mpr hmem) s.1 rfl
  · rw [hzero]
    exact hnonneg

theorem eq_of_perm (h : Chosen ws s) (h' : Chosen ws' s') (hperm : ws'.Perm ws)
    (hun : Unambiguous ws) : s'.2 = s.2 := by
  have hweight : s'.1 = s.1 :=
    Int.le_antisymm (h'.weight_le_of_perm h hperm.symm) (h.weight_le_of_perm h' hperm)
  rcases h.exists_mem with ⟨d, hd, hpos, hmem⟩ | ⟨hzero, hrest⟩
  · rcases h'.exists_mem with ⟨d', hd', -, hmem'⟩ | ⟨hzero', -⟩
    · rw [hweight] at hmem'
      rw [hd, hd', hun.eq_of_weight (hperm.mem_iff.mp hmem') hmem hpos]
    · omega
  · rcases h'.exists_mem with ⟨d', -, hpos', -⟩ | ⟨-, hrest'⟩
    · omega
    rcases hrest with ⟨d, hd, hmem⟩ | ⟨hd, hall⟩
    · rcases hrest' with ⟨d', hd', hmem'⟩ | ⟨-, hall'⟩
      · rw [hd, hd', hun.eq_of_none (hperm.mem_iff.mp hmem') hmem]
      · exact absurd rfl (hall' _ (hperm.mem_iff.mpr hmem))
    · rcases hrest' with ⟨d', -, hmem'⟩ | ⟨hd', -⟩
      · exact absurd rfl (hall _ (hperm.mem_iff.mp hmem'))
      · rw [hd, hd']

end Chosen

/-! ## The node that is followed -/

variable {g : Graph} {node : Addr} {n : GraphNode}

/-- `graph_node_connect` for each of some connections, in order. -/
def connectAll (g : Graph) (node : Addr) (cs : List Connection) : Option Graph :=
  cs.foldlM (fun g c => (g.graphNodeConnect node c.destination c.chooser c.context).map Prod.fst) g

/-- Connections are appended in the order in which they are made. -/
theorem connectAll_eq (cs : List Connection) :
    ∀ {g : Graph} {n : GraphNode}, g.heap node = some n →
      ∃ g', connectAll g node cs = some g' ∧
        g'.heap node = some { n with connections := n.connections ++ cs } := by
  induction cs with
  | nil =>
      intro g n hn
      exact ⟨g, rfl, by rwa [List.append_nil]⟩
  | cons c cs ih =>
      intro g n hn
      let n' : GraphNode := { n with connections := n.connections ++ [c] }
      obtain ⟨g', hrun, hn'⟩ := ih (g := { g with heap := g.heap.put node n' }) (Heap.put_self hn)
      rw [List.append_assoc, List.singleton_append] at hn'
      refine ⟨g', ?_, hn'⟩
      rw [connectAll, List.foldlM_cons, graphNodeConnect, Heap.modify_eq_some _ hn]
      exact hrun

theorem graphNodeNext_chosen (answers : ChooserAnswers) (hn : g.heap node = some n) :
    ∃ s, g.graphNodeNext answers node = some s.2 ∧
      Chosen (weighed answers node [] n.connections) s := by
  have hfold := foldl_considerConnection answers node n.connections
    { calls := [], weight := 0, selected := none }
  have hchosen : Chosen (weighed answers node [] n.connections)
      ((weighed answers node [] n.connections).foldl considerWeighed (0, none)) :=
    chosen_foldl _ (.nothing nofun nofun : Chosen [] (0, none))
  refine ⟨_, ?_, hchosen⟩
  rw [graphNodeNext, hn]
  exact congrArg (fun s => some s.2) hfold

/-- The node that follows is the destination of the first connection with the greatest positive
weight, else of the last one without a chooser.  If this is unambiguous, the order in which the
connections were added does not matter. -/
theorem graphNodeNext_selects (answers : ChooserAnswers) (hn : g.heap node = some n) :
    (∃ d, g.graphNodeNext answers node = some d ∧
      Selects (weighed answers node [] n.connections) d) ∧
    ∀ {answers₁ answers₂ : ChooserAnswers} {cs₁ cs₂ : List Connection} {g₁ g₂ : Graph},
      connectAll g node cs₁ = some g₁ → connectAll g node cs₂ = some g₂ →
      (weighed answers₂ node [] (n.connections ++ cs₂)).Perm
        (weighed answers₁ node [] (n.connections ++ cs₁)) →
      Unambiguous (weighed answers₁ node [] (n.connections ++ cs₁)) →
      g₂.graphNodeNext answers₂ node = g₁.graphNodeNext answers₁ node := by
  refine ⟨?_, fun {answers₁ answers₂ cs₁ cs₂ g₁ g₂} hrun₁ hrun₂ hperm hun => ?_⟩
  · obtain ⟨s, hnext, hchosen⟩ := graphNodeNext_chosen answers hn
    exact ⟨s.2, hnext, s.1, hchosen⟩
  · obtain ⟨_, hall₁, hn₁⟩ := connectAll_eq cs₁ hn
    obtain ⟨_, hall₂, hn₂⟩ := connectAll_eq cs₂ hn
    rw [hrun₁] at hall₁
    rw [hrun₂] at hall₂
    cases hall₁
    cases hall₂
    obtain ⟨s₁, hnext₁, h₁⟩ := graphNodeNext_chosen answers₁ hn₁
    obtain ⟨s₂, hnext₂, h₂⟩ := graphNodeNext_chosen answers₂ hn₂
    rw [hnext₁, hnext₂, h₁.eq_of_perm h₂ hperm hun]

/-- Each chooser answers with its own address. -/
def ownAddress : ChooserAnswers := fun calls => ((calls.getLast?.map ChooserCall.chooser).getD 0 : ℕ)

/-- Two connections with positive weights and one without a chooser. -/
def mixedConnections : List Connection := [⟨1, some 2, none⟩, ⟨2, none, none⟩, ⟨3, some 5, none⟩]

theorem graphNodeNext_selects_mixed : ∃ g g₁ g₂ n₁, connectAll g 0 mixedConnections = some g₁ ∧
    connectAll g 0 mixedConnections.reverse = some g₂ ∧
    g₁.heap 0 = some n₁ ∧ n₁.connections = mixedConnections ∧
    (∃ d, g₁.graphNodeNext ownAddress 0 = some d ∧
      Selects (weighed ownAddress 0 [] n₁.connections) d) ∧
    g₂.graphNodeNext ownAddress 0 = g₁.graphNodeNext ownAddress 0 := by
  have hadd : ((graphCreate none true 7).bind fun g => g.graphNodeAdd (some [97]) none 0).map
      (fun r => r.1.heap 0) = some (some ⟨[97], none, 0, []⟩) := by
    decide
  obtain ⟨⟨g, r⟩, -, hn⟩ := Option.map_eq_some_iff.mp hadd
  obtain ⟨g₁, hrun₁, hn₁⟩ := connectAll_eq mixedConnections hn
  obtain ⟨g₂, hrun₂, -⟩ := connectAll_eq mixedConnections.reverse hn
  have hun : Unambiguous (weighed ownAddress 0 [] mixedConnections) := by
    constructor
    · simp [weighed, mixedConnections, ownAddress, WeightsDiffer]
      omega
    · simp [weighed, mixedConnections, OneHasChooser]
  obtain ⟨hnext, -⟩ := graphNodeNext_selects ownAddress hn₁
  obtain ⟨-, horder⟩ := graphNodeNext_selects ownAddress hn
  exact ⟨g, g₁, g₂, _, hrun₁, hrun₂, hn₁, rfl, hnext, horder hrun₁ hrun₂ (by decide) hun⟩

end Graph
end LibHL
