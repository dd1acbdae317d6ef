import LibHL.BinHeap.Shape

/-!
# Merging two binomial heaps

`binheap_merge` takes the trees of two heaps one by one and links trees of equal
order, with one tree carried from round to round.  Both heaps lie in one memory:
the nodes of the second heap are moved behind those of the first one.  Besides its
trees every heap has its own counter and head, and every node points to the heap it
was inserted into, which is not changed by the merge.
-/

namespace LibHL
namespace BinHeap

variable {K V : Type} (cmp : K → K → ℤ) (mode : BinheapMode)

/-- The tree taken last from a heap, and the trees left in its list. -/
structure Source where
  node : Option Addr
  trees : List Addr
  deriving DecidableEq

namespace Source

/-- `list_shift_value`. -/
def shift (src : Source) : Source where
  node := src.trees.head?
  trees := src.trees.tail

/-- All trees of the source. -/
def all (src : Source) : List Addr := src.node.toList ++ src.trees

end Source

/-- The variables of the loop.  `links` records the orders of the trees that were
linked, the new parent first; the source has no such variable. -/
structure MergeState (K V : Type) where
  nodes : Heap (BinomialTreeNode K V)
  src₁ : Source
  src₂ : Source
  carry : Option Addr
  newList : List Addr
  links : List (ℕ × ℕ)

namespace MergeState

/-- Compare the number of children of a tree, if there is a tree. -/
def orderTest (nodes : Heap (BinomialTreeNode K V)) (test : ℕ → Bool) :
    Option Addr → Option Bool
  | none => some false
  | some a => do
      let n ← nodes a
      some (test n.children.length)

/-- Link two trees under the root that wins the comparison of their keys.  The results
are the state and that root. -/
def link (wins : K → K → Bool) (s : MergeState K V) (a b : Addr) :
    Option (MergeState K V × Addr) := do
  let n ← s.nodes a
  let m ← s.nodes b
  if wins n.key m.key then do
    let nodes ← binomialTreeMerge s.nodes a b
    some ({ s with
      nodes := nodes
      links := s.links ++ [(n.children.length, m.children.length)] }, a)
  else do
    let nodes ← binomialTreeMerge s.nodes b a
    some ({ s with
      nodes := nodes
      links := s.links ++ [(m.children.length, n.children.length)] }, b)

/-- `HAS_PRECEDENCE` as a test. -/
def precedes (k₁ k₂ : K) : Bool := decide (HasPrecedence cmp mode k₁ k₂)

/-- The first half of a round, if there is a carry: link it with a tree of its order,
or exchange it with a tree of a higher order.  The flag tells that the round is over. -/
def settleCarry (s : MergeState K V) (carry : Addr) : Option (MergeState K V × Bool) := do
  let c ← s.nodes carry
  let order := c.children.length
  if ← orderTest s.nodes (· = order) s.src₁.node then do
    let node ← s.src₁.node
    let (s, root) ← link (precedes cmp mode) s node carry
    some ({ s with src₁ := { s.src₁ with node := some root }, carry := none }, false)
  else if ← orderTest s.nodes (· = order) s.src₂.node then do
    let node ← s.src₂.node
    let (s, root) ← link (precedes cmp mode) s node carry
    some ({ s with src₂ := { s.src₂ with node := some root }, carry := none }, false)
  else if s.src₁.node = none ∧ s.src₂.node = none then
    some ({ s with newList := s.newList ++ [carry], carry := none }, true)
  else if ← orderTest s.nodes (order < ·) s.src₁.node then
    some ({ s with src₁ := { s.src₁ with node := some carry }, carry := s.src₁.node }, false)
  else if ← orderTest s.nodes (order < ·) s.src₂.node then
    some ({ s with src₂ := { s.src₂ with node := some carry }, carry := s.src₂.node }, false)
  else
    some (s, false)

/-- Put the tree of the first source on the new list. -/
def push₁ (s : MergeState K V) (a : Addr) : MergeState K V :=
  { s with newList := s.newList ++ [a], src₁ := s.src₁.shift }

/-- Put the tree of the second source on the new list. -/
def push₂ (s : MergeState K V) (a : Addr) : MergeState K V :=
  { s with newList := s.newList ++ [a], src₂ := s.src₂.shift }

/-- The linked pair becomes the carry, and takes part in another link if there is a
carry already. -/
def linkCarry (wins : K → K → Bool) (s : MergeState K V) (root : Addr) :
    Option (MergeState K V) :=
  match s.carry with
  | none => some { s with carry := some root }
  | some carry => do
      let (s, root) ← link wins s root carry
      some { s with carry := some root }

/-- The second half of a round: put the tree of lower order on the new list, or link
two trees of equal order.  If the first tree stays the root, the link with a carry does
not compare as `HAS_PRECEDENCE` does. -/
def compareNodes (s : MergeState K V) : Option (MergeState K V) :=
  match s.src₁.node, s.src₂.node with
  | some a, none => some (s.push₁ a)
  | none, some b => some (s.push₂ b)
  | none, none => none
  | some a, some b => do
      let n ← s.nodes a
      let m ← s.nodes b
      if n.children.length < m.children.length then
        some (s.push₁ a)
      else if m.children.length < n.children.length then
        some (s.push₂ b)
      else do
        let (s, root) ← link (precedes cmp mode) s a b
        let s ←
          if precedes cmp mode n.key m.key then
            linkCarry (fun k₁ k₂ => 0 ≤ cmp k₁ k₂) s root
          else
            linkCarry (precedes cmp mode) s root
        some { s with src₁ := s.src₁.shift, src₂ := s.src₂.shift }

/-- The state between the two halves of a round, unless the round is over before. -/
def midState (s : MergeState K V) : Option (MergeState K V) :=
  match s.carry with
  | none => some s
  | some carry => do
      let (s, isOver) ← settleCarry cmp mode s carry
      if isOver then none else some s

/-- One round of the loop. -/
def mergeRound (s : MergeState K V) : Option (MergeState K V) :=
  match s.carry with
  | none => compareNodes cmp mode s
  | some carry => do
      let (s, isOver) ← settleCarry cmp mode s carry
      if isOver then some s else compareNodes cmp mode s

/-- The loop ends when no tree is in hand. -/
def Done (s : MergeState K V) : Prop :=
  s.src₁.node = none ∧ s.src₂.node = none ∧ s.carry = none

instance (s : MergeState K V) : Decidable s.Done :=
  inferInstanceAs (Decidable (_ ∧ _ ∧ _))

/-- The loop of `binheap_merge`. -/
def mergeLoop : ℕ → MergeState K V → Option (MergeState K V)
  | 0, _ => none
  | fuel + 1, s =>
      if s.Done then some s
      else do
        let s ← mergeRound cmp mode s
        mergeLoop fuel s

/-- The state before the loop. -/
def start (nodes : Heap (BinomialTreeNode K V)) (trees₁ trees₂ : List Addr) :
    MergeState K V where
  nodes := nodes
  src₁ := Source.shift ⟨none, trees₁⟩
  src₂ := Source.shift ⟨none, trees₂⟩
  carry := none
  newList := []
  links := []

end MergeState

/-! ## The heaps before and after the merge -/

/-- The heaps that meet in a merge. -/
inductive HeapName where
  | first
  | second
  | merged
  deriving DecidableEq

/-- `binheap_t` without the nodes. -/
structure BinheapFields where
  trees : List Addr
  head : Option Addr
  count : ℤ
  mode : BinheapMode

/-- Three heaps in one memory; `owner` is the field `bh` of the nodes. -/
structure Binheaps (K V : Type) where
  nodes : Heap (BinomialTreeNode K V)
  owner : Addr → HeapName
  fields : HeapName → BinheapFields

/-- Adjust the pointers of a node that is moved. -/
def relocate (offset : ℕ) (n : BinomialTreeNode K V) : BinomialTreeNode K V :=
  { n with
    parent := n.parent.map (offset + ·)
    children := n.children.map (offset + ·) }

/-- The nodes of two heaps in one memory. -/
def jointNodes (bh₁ bh₂ : BinHeap K V) : Heap (BinomialTreeNode K V) :=
  bh₁.nodes.beside bh₂.nodes (relocate bh₁.nodes.brk)

/-- The state in which the loop starts for two heaps. -/
def mergeStart (bh₁ bh₂ : BinHeap K V) : MergeState K V :=
  MergeState.start (jointNodes bh₁ bh₂) bh₁.trees (bh₂.trees.map (bh₁.nodes.brk + ·))

/-- The number of rounds that is enough for two heaps. -/
def mergeFuel (bh₁ bh₂ : BinHeap K V) : ℕ := bh₁.trees.length + bh₂.trees.length + 1

/-- The heaps when the loop is over.  The new heap has no head yet. -/
def mergeResult (bh₁ bh₂ : BinHeap K V) (s : MergeState K V) : Binheaps K V where
  nodes := s.nodes
  owner := fun a => if a < bh₁.nodes.brk then .first else .second
  fields := fun
    | .first => ⟨s.src₁.trees, bh₁.head, bh₁.count, bh₁.mode⟩
    | .second => ⟨s.src₂.trees, bh₂.head.map (bh₁.nodes.brk + ·), bh₂.count, bh₂.mode⟩
    | .merged => ⟨s.newList, none, bh₁.count + bh₂.count, bh₁.mode⟩

/-- `binheap_merge`; the inner `none` stands for the null pointer that is returned for
heaps of different modes. -/
def binheapMerge (bh₁ bh₂ : BinHeap K V) : Option (Option (Binheaps K V)) :=
  if bh₁.mode ≠ bh₂.mode then
    some none
  else do
    let s ← MergeState.mergeLoop cmp bh₁.mode (mergeFuel bh₁ bh₂) (mergeStart bh₁ bh₂)
    some (some (mergeResult bh₁ bh₂ s))

end BinHeap
end LibHL
