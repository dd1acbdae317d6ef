import LibHL.Support.Heap
import Mathlib.Data.List.Basic
import Mathlib.Data.Int.Init

/-!
# The binomial heap of `binheap.c`

Tree nodes are heap cells with a parent pointer and an array of children; the
heap holds the list of the roots and caches one of them as its head.  The list
of roots is a plain list: it is only used through the value operations of the
linked list, which behave as those of a plain list.  Counters do not overflow,
and allocations succeed.
-/

namespace LibHL

/-- `binomial_tree_node_t`. -/
structure BinomialTreeNode (K V : Type) where
  key : K
  value : V
  parent : Option Addr
  children : List Addr

/-- `binheap_mode_t`. -/
inductive BinheapMode where
  | max
  | min
  deriving DecidableEq

/-- `binheap_t`. -/
structure BinHeap (K V : Type) where
  nodes : Heap (BinomialTreeNode K V)
  trees : List Addr
  head : Option Addr
  count : ℤ
  mode : BinheapMode

namespace BinHeap

variable {K V : Type} (cmp : K → K → ℤ)

/-- `HAS_PRECEDENCE`. -/
def HasPrecedence (mode : BinheapMode) (k₁ k₂ : K) : Prop :=
  match mode with
  | .max => 0 ≤ cmp k₁ k₂
  | .min => cmp k₁ k₂ ≤ 0

instance (mode : BinheapMode) (k₁ k₂ : K) : Decidable (HasPrecedence cmp mode k₁ k₂) :=
  match mode with
  | .max => inferInstanceAs (Decidable (_ ≤ _))
  | .min => inferInstanceAs (Decidable (_ ≤ _))

/-! ## Choosing among keys -/

/-- Walk over keys from index `i` on, keeping the index of the best one so far;
`replace` decides when a key takes over. -/
def selectFrom (replace : K → K → Bool) : ℕ → K → ℕ → List K → ℕ
  | best, _, _, [] => best
  | best, bestKey, i, k :: ks =>
      if replace k bestKey then selectFrom replace i k (i + 1) ks
      else selectFrom replace best bestKey (i + 1) ks

/-- The index of the key that the walk ends with; none without any key. -/
def selectIndex (replace : K → K → Bool) : List K → Option ℕ
  | [] => none
  | k :: ks => some (selectFrom replace 0 k 1 ks)

/-- The key of a node. -/
def keyOf (nodes : Heap (BinomialTreeNode K V)) (a : Addr) : Option K :=
  (nodes a).map BinomialTreeNode.key

/-- The loop shared by the two functions that look for a child. -/
def findChild (replace : K → K → Bool) (nodes : Heap (BinomialTreeNode K V))
    (node : BinomialTreeNode K V) : Option (Option ℕ) := do
  let keys ← node.children.mapM (keyOf nodes)
  some (selectIndex replace keys)

/-- `binomial_tree_node_find_min_child`; none stands for -1. -/
def binomialTreeNodeFindMinChild (nodes : Heap (BinomialTreeNode K V))
    (node : BinomialTreeNode K V) : Option (Option ℕ) :=
  findChild (fun cur min => cmp cur min ≤ 0) nodes node

/-- `binomial_tree_node_find_max_child`; none stands for -1. -/
def binomialTreeNodeFindMaxChild (nodes : Heap (BinomialTreeNode K V))
    (node : BinomialTreeNode K V) : Option (Option ℕ) :=
  findChild (fun cur max => 0 ≤ cmp cur max) nodes node

/-- The child search towards one end. -/
def findChildOf (side : BinheapMode) (nodes : Heap (BinomialTreeNode K V))
    (node : BinomialTreeNode K V) : Option (Option ℕ) :=
  match side with
  | .max => binomialTreeNodeFindMaxChild cmp nodes node
  | .min => binomialTreeNodeFindMinChild cmp nodes node

/-- When a root takes over in `binheap_maxmin`. -/
def rootReplaces (side : BinheapMode) (cur best : K) : Bool :=
  match side with
  | .max => 0 ≤ cmp cur best
  | .min => ¬ 0 ≤ cmp cur best

/-- `binheap_maxmin`: the index of the extreme root. -/
def binheapMaxmin (bh : BinHeap K V) (side : BinheapMode) : Option (Option ℕ) := do
  let keys ← bh.trees.mapM (keyOf bh.nodes)
  some (selectIndex (rootReplaces cmp side) keys)

/-- The descent to a leaf, always to the child that is extreme among its
siblings.  It cannot visit more nodes than there are. -/
def descend (side : BinheapMode) (nodes : Heap (BinomialTreeNode K V)) :
    ℕ → Addr → Option Addr
  | 0, _ => none
  | fuel + 1, a => do
      let n ← nodes a
      match ← findChildOf cmp side nodes n with
      | none => some a
      | some i => do
          let c ← n.children[i]?
          descend side nodes fuel c

/-- The body shared by `binheap_get_minimum` and `binheap_get_maximum`: a node,
if there is one, and what the index variable holds afterwards.  The cached head
answers for the end the heap is organised for. -/
def getExtremum (bh : BinHeap K V) (side : BinheapMode) : Option (Option Addr × ℕ) :=
  if bh.mode = side ∧ bh.head.isSome then
    some (bh.head, 0)
  else do
    match ← binheapMaxmin cmp bh side with
    | none => some (none, 0)
    | some i => do
        let root ← bh.trees[i]?
        if bh.mode = side then
          some (some root, i)
        else do
          let leaf ← descend cmp side bh.nodes bh.nodes.brk root
          some (some leaf, i)

/-- `binheap_get_minimum`. -/
def binheapGetMinimum (bh : BinHeap K V) : Option (Option Addr × ℕ) :=
  getExtremum cmp bh .min

/-- `binheap_get_maximum`. -/
def binheapGetMaximum (bh : BinHeap K V) : Option (Option Addr × ℕ) :=
  getExtremum cmp bh .max

/-- `UPDATE_HEAD`. -/
def updateHead (bh : BinHeap K V) : Option (BinHeap K V) := do
  let bh := { bh with head := none }
  let r ←
    match bh.mode with
    | .max => binheapGetMaximum cmp bh
    | .min => binheapGetMinimum cmp bh
  some { bh with head := r.1 }

/-! ## Linking and unlinking -/

/-- `binomial_tree_node_add`, which `binomial_tree_merge` repeats. -/
def binomialTreeNodeAdd (nodes : Heap (BinomialTreeNode K V)) (node child : Addr) :
    Option (Heap (BinomialTreeNode K V)) := do
  let nodes ← nodes.modify node fun n => { n with children := n.children ++ [child] }
  nodes.modify child fun n => { n with parent := some node }

/-- `binomial_tree_merge`. -/
def binomialTreeMerge (nodes : Heap (BinomialTreeNode K V)) (node₁ node₂ : Addr) :
    Option (Heap (BinomialTreeNode K V)) :=
  binomialTreeNodeAdd nodes node₁ node₂

/-- Add the children of a node that goes away to their new parent, in order. -/
def addChildren (newParent : Addr) :
    List Addr → Heap (BinomialTreeNode K V) → Option (Heap (BinomialTreeNode K V))
  | [], nodes => some nodes
  | c :: cs, nodes => do
      let nodes ← binomialTreeNodeAdd nodes newParent c
      addChildren newParent cs nodes

/-- Children without a new parent become parentless. -/
def orphanChildren :
    List Addr → Heap (BinomialTreeNode K V) → Option (Heap (BinomialTreeNode K V))
  | [], nodes => some nodes
  | c :: cs, nodes => do
      let nodes ← nodes.modify c fun n => { n with parent := none }
      orphanChildren cs nodes

/-- Remove a root from the list of trees: by its index if that is known, that
is not zero, else by a walk with `list_foreach_value`.  The second result is
`item_num`. -/
def removeTree (trees : List Addr) (node : Addr) (rindex : ℕ) : List Addr × ℕ :=
  if rindex ≠ 0 then
    (trees.eraseIdx rindex, rindex + 1)
  else if node ∈ trees then
    (trees.erase node, trees.idxOf node + 1)
  else
    (trees, trees.length)

/-- The root branch of `binomial_tree_node_destroy`: the best child takes the
place of the root.  The results are the heap, the new parent, and the children
that still need it. -/
def replaceRoot (bh : BinHeap K V) (node : Addr) (n : BinomialTreeNode K V)
    (rindex : ℕ) : Option (BinHeap K V × Option Addr × List Addr) := do
  let (trees, itemNum) := removeTree bh.trees node rindex
  match ← findChildOf cmp bh.mode bh.nodes n with
  | none => some ({ bh with trees := trees }, none, n.children)
  | some i => do
      let c ← n.children[i]?
      let nodes ← bh.nodes.modify c fun m => { m with parent := none }
      if itemNum = 0 then
        some ({ bh with nodes := nodes, trees := trees }, some c, n.children.eraseIdx i)
      else if itemNum - 1 ≤ trees.length then
        some ({ bh with nodes := nodes, trees := trees.insertIdx (itemNum - 1) c },
          some c, n.children.eraseIdx i)
      else
        -- The list would be padded with null trees.
        none

/-- The inner-node branch of `binomial_tree_node_destroy`: the node leaves its
parent, which takes over the children. -/
def leaveParent (bh : BinHeap K V) (node parent : Addr) (n : BinomialTreeNode K V) :
    Option (BinHeap K V × Option Addr × List Addr) := do
  let nodes ← bh.nodes.modify parent fun p => { p with children := p.children.erase node }
  some ({ bh with nodes := nodes }, some parent, n.children)

/-- Unlink a node and find who takes over its children. -/
def unlinkNode (bh : BinHeap K V) (node : Addr) (n : BinomialTreeNode K V) (rindex : ℕ) :
    Option (BinHeap K V × Option Addr × List Addr) :=
  match n.parent with
  | some parent => leaveParent bh node parent n
  | none => replaceRoot cmp bh node n rindex

/-- Hand the children over. -/
def handOver (nodes : Heap (BinomialTreeNode K V)) (newParent : Option Addr)
    (children : List Addr) : Option (Heap (BinomialTreeNode K V)) :=
  match newParent with
  | some p => addChildren p children nodes
  | none => orphanChildren children nodes

/-- Refresh the head if it is the node that goes away. -/
def refreshHead (bh : BinHeap K V) (node : Addr) : Option (BinHeap K V) :=
  if bh.head = some node then updateHead cmp bh else some bh

/-- `binomial_tree_node_destroy`. -/
def binomialTreeNodeDestroy (bh : BinHeap K V) (node : Addr) (rindex : ℕ) :
    Option (BinHeap K V) := do
  let n ← bh.nodes node
  let (bh, newParent, children) ← unlinkNode cmp bh node n rindex
  let nodes ← handOver bh.nodes newParent children
  let bh ← refreshHead cmp { bh with nodes := nodes } node
  let nodes ← bh.nodes.free node
  some { bh with nodes := nodes, count := bh.count - 1 }

/-! ## The interface -/

/-- `binheap_create`. -/
def binheapCreate (mode : BinheapMode) : BinHeap K V where
  nodes := Heap.empty
  trees := []
  head := none
  count := 0
  mode := mode

/-- The loop of `binheap_insert`: merge with the first trees as long as they have
the order reached.  The results are the nodes, the merged tree, and the trees
that stay in the list. -/
def mergeTrees (mode : BinheapMode) :
    List Addr → Addr → ℕ → Heap (BinomialTreeNode K V) →
      Option (Heap (BinomialTreeNode K V) × Addr × List Addr)
  | [], node, _, nodes => some (nodes, node, [])
  | tree :: trees, node, order, nodes => do
      let t ← nodes tree
      let n ← nodes node
      if t.children.length = order then
        if HasPrecedence cmp mode n.key t.key then do
          let nodes ← binomialTreeMerge nodes node tree
          mergeTrees mode trees node (order + 1) nodes
        else do
          let nodes ← binomialTreeMerge nodes tree node
          mergeTrees mode trees tree (order + 1) nodes
      else
        some (nodes, node, tree :: trees)

/-- `binheap_insert`. -/
def binheapInsert (bh : BinHeap K V) (key : K) (value : V) : Option (BinHeap K V × ℤ) := do
  let r := bh.nodes.alloc { key := key, value := value, parent := none, children := [] }
  let (nodes, node, trees) ← mergeTrees cmp bh.mode bh.trees r.2 0 r.1
  let bh := { bh with nodes := nodes, trees := node :: trees, count := bh.count + 1 }
  match bh.head with
  | none => some ({ bh with head := some node }, 0)
  | some _ => do
      let bh ← updateHead cmp bh
      some (bh, 0)

/-- Among the candidates with precedence over a key, the last one that is
closest to it; the choice `binheap_delete` makes among trees and children. -/
def closestTo (mode : BinheapMode) (key : K) : List (Addr × K) → Option (Addr × K) →
    Option (Addr × K)
  | [], best => best
  | c :: cs, best =>
      if HasPrecedence cmp mode c.2 key then
        match best with
        | some b =>
            if HasPrecedence cmp mode b.2 c.2 then closestTo mode key cs (some c)
            else closestTo mode key cs (some b)
        | none => closestTo mode key cs (some c)
      else
        closestTo mode key cs best

/-- A node address with its key. -/
def withKey (nodes : Heap (BinomialTreeNode K V)) (a : Addr) : Option (Addr × K) :=
  (nodes a).map fun n => (a, n.key)

/-- The search loop of `binheap_delete`.  It cannot visit more nodes than there
are. -/
def searchKey (mode : BinheapMode) (key : K) (nodes : Heap (BinomialTreeNode K V)) :
    ℕ → Addr → Option (Option Addr)
  | 0, _ => none
  | fuel + 1, a => do
      let n ← nodes a
      if cmp n.key key = 0 then
        some (some a)
      else do
        let candidates ← n.children.mapM (withKey nodes)
        match closestTo cmp mode key candidates none with
        | none => some none
        | some c => searchKey mode key nodes fuel c.1

/-- `binheap_delete`: the return code, and the value handed out. -/
def binheapDelete (bh : BinHeap K V) (key : K) :
    Option (BinHeap K V × ℤ × Option V) := do
  let candidates ← bh.trees.mapM (withKey bh.nodes)
  match closestTo cmp bh.mode key candidates none with
  | none => some (bh, -1, none)
  | some tree => do
      match ← searchKey cmp bh.mode key bh.nodes bh.nodes.brk tree.1 with
      | none => some (bh, -1, none)
      | some a => do
          let n ← bh.nodes a
          let bh ← binomialTreeNodeDestroy cmp bh a 0
          some (bh, 0, some n.value)

/-- The body shared by `binheap_delete_minimum` and `binheap_delete_maximum`. -/
def deleteExtremum (bh : BinHeap K V) (side : BinheapMode) :
    Option (BinHeap K V × ℤ × Option V) := do
  let (node, index) ← getExtremum cmp bh side
  match node with
  | none => some (bh, -1, none)
  | some a => do
      let n ← bh.nodes a
      let bh ← binomialTreeNodeDestroy cmp bh a index
      some (bh, 0, some n.value)

/-- `binheap_delete_minimum`. -/
def binheapDeleteMinimum (bh : BinHeap K V) : Option (BinHeap K V × ℤ × Option V) :=
  deleteExtremum cmp bh .min

/-- `binheap_delete_maximum`. -/
def binheapDeleteMaximum (bh : BinHeap K V) : Option (BinHeap K V × ℤ × Option V) :=
  deleteExtremum cmp bh .max

/-- The body shared by `binheap_minimum` and `binheap_maximum`: the return code,
and the key and value handed out. -/
def peekExtremum (bh : BinHeap K V) (side : BinheapMode) : Option (ℤ × Option (K × V)) := do
  let (node, _) ← getExtremum cmp bh side
  match node with
  | none => some (-1, none)
  | some a => do
      let n ← bh.nodes a
      some (0, some (n.key, n.value))

/-- `binheap_minimum`. -/
def binheapMinimum (bh : BinHeap K V) : Option (ℤ × Option (K × V)) :=
  peekExtremum cmp bh .min

/-- `binheap_maximum`. -/
def binheapMaximum (bh : BinHeap K V) : Option (ℤ × Option (K × V)) :=
  peekExtremum cmp bh .max

/-- `binheap_count`. -/
def binheapCount (bh : BinHeap K V) : ℤ := bh.count

end BinHeap
end LibHL
