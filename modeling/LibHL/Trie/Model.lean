import LibHL.Support.Heap
import Mathlib.Data.List.FinRange

/-!
# Tries

The functions of `trie.c` over a heap of nodes.  A key is the list of its bytes
before the terminator.  Plain `char` is signed, so a byte from 128 on is a
negative index into the array of children, and following it has no result.

A value is either a pointer of the caller or a block that the trie allocated to
copy it; such a block has a number of its own.  The trie records which values
went to `free` and which to the callback.
-/

namespace LibHL

/-- A pointer to a value: one that the caller handed over, or a copy. -/
inductive ValuePtr (V : Type) where
  | given (v : V)
  | copied (block : ℕ) (v : V)
deriving DecidableEq, Repr

/-- What a pointer points to. -/
def ValuePtr.contents {V : Type} : ValuePtr V → V
  | given v => v
  | copied _ v => v

/-- `trie_node_t`. -/
structure TrieNode (V : Type) where
  value : Option (ValuePtr V)
  vsize : ℕ
  isCopy : Bool
  numChildren : ℤ
  child : UInt8 → Option Addr
  parent : Option Addr
  pidx : UInt8

/-- `child[i] = p`. -/
def TrieNode.setChild {V : Type} (n : TrieNode V) (i : UInt8) (p : Option Addr) :
    TrieNode V :=
  { n with child := Function.update n.child i p }

/-- `trie_t`, with its nodes and the values it released. -/
structure Trie (V : Type) where
  nodes : Heap (TrieNode V)
  count : ℤ
  nodeCount : ℤ
  root : Addr
  freeValueCb : Bool
  blocks : ℕ
  freed : List (ValuePtr V)
  passedToCb : List (ValuePtr V)

namespace Trie

variable {V : Type}

/-- A node as `calloc` returns it. -/
def newNode : TrieNode V where
  value := none
  vsize := 0
  isCopy := false
  numChildren := 0
  child := fun _ => none
  parent := none
  pidx := 0

/-- `trie_create`. -/
def trieCreate (freeValueCb : Bool) : Trie V :=
  let (nodes, root) := (Heap.empty : Heap (TrieNode V)).alloc newNode
  { nodes := nodes
    count := 0
    nodeCount := 0
    root := root
    freeValueCb := freeValueCb
    blocks := 0
    freed := []
    passedToCb := [] }

/-- The index `(int)c` of a plain `char`, if it is one of the array of children. -/
def childIndex (c : UInt8) : Option UInt8 := if c < 128 then some c else none

/-- A value that leaves a node goes to `free` if it is a copy, else to the
callback, if there is one. -/
def releaseValue (trie : Trie V) (n : TrieNode V) (freeValueCb : Bool) : Trie V :=
  match n.value with
  | none => trie
  | some p =>
      if n.isCopy then { trie with freed := trie.freed ++ [p] }
      else if freeValueCb then { trie with passedToCb := trie.passedToCb ++ [p] }
      else trie

/-! ## Destroying nodes -/

/-- The loop of `trie_node_destroy` over the ancestors that only led to the node:
it returns the first one to keep and the index of the branch below it. -/
def freeEmptyParents : ℕ → Trie V → Option Addr → UInt8 → Option (Trie V × Option Addr × UInt8)
  | _, trie, none, pidx => some (trie, none, pidx)
  | 0, _, some _, _ => none
  | fuel + 1, trie, some parent, pidx => do
      if parent = trie.root then
        some (trie, some parent, pidx)
      else
        let n ← trie.nodes parent
        if n.value.isSome ∨ 1 < n.numChildren then
          some (trie, some parent, pidx)
        else
          let nodes ← trie.nodes.free parent
          freeEmptyParents fuel { trie with nodes := nodes, nodeCount := trie.nodeCount - 1 }
            n.parent n.pidx

/-- `parent->child[pidx] = NULL; parent->num_children--`, if there is a parent. -/
def clearChild (trie : Trie V) (parent : Option Addr) (pidx : UInt8) : Option (Trie V) :=
  match parent with
  | none => some trie
  | some p => do
      let i ← childIndex pidx
      let nodes ← trie.nodes.modify p fun n =>
        { n.setChild i none with numChildren := n.numChildren - 1 }
      some { trie with nodes := nodes }

/-- The end of `trie_node_destroy`: the value is released, then the node. -/
def freeNode (trie : Trie V) (node : Addr) (freeValueCb : Bool) : Option (Trie V) := do
  let n ← trie.nodes node
  let trie := releaseValue trie n freeValueCb
  let nodes ← trie.nodes.free node
  some { trie with
    nodes := nodes
    count := if n.value.isSome then trie.count - 1 else trie.count
    nodeCount := trie.nodeCount - 1 }

/-- The indices of the array of children, in the order of the loop. -/
def childIndices : List UInt8 := (List.finRange 256).map UInt8.ofFin

/-- The loop of `trie_node_destroy` over the children, with the recursive call as
a parameter. -/
def destroyChildren (destroy : Trie V → Addr → Option (Trie V)) (node : Addr) :
    Trie V → List UInt8 → Option (Trie V)
  | trie, [] => some trie
  | trie, i :: is => do
      let n ← trie.nodes node
      match n.child i with
      | none => destroyChildren destroy node trie is
      | some c =>
          let nodes ← trie.nodes.modify c fun m => { m with parent := none }
          let trie ← destroy { trie with nodes := nodes } c
          let trie ← clearChild trie (some node) i
          destroyChildren destroy node trie is

/-- `trie_node_destroy`. -/
def trieNodeDestroy (freeValueCb : Bool) : ℕ → Trie V → Addr → Option (Trie V)
  | 0, _, _ => none
  | fuel + 1, trie, node => do
      let n ← trie.nodes node
      let (trie, parent, pidx) ← freeEmptyParents trie.nodes.brk trie n.parent n.pidx
      let trie ← clearChild trie parent pidx
      let trie ← destroyChildren (trieNodeDestroy freeValueCb fuel) node trie childIndices
      freeNode trie node freeValueCb

/-- `trie_destroy`, up to the release of the trie itself. -/
def trieDestroy (trie : Trie V) : Option (Trie V) :=
  trieNodeDestroy trie.freeValueCb trie.nodes.brk trie trie.root

/-! ## Inserting -/

/-- `trie_node_set_value`.  Copying from a null pointer has no result. -/
def trieNodeSetValue (trie : Trie V) (node : Addr) (value : Option V) (vsize : ℕ)
    (copy : Bool) : Option (Trie V) := do
  let n ← trie.nodes node
  let trie := releaseValue trie n trie.freeValueCb
  if copy then
    let v ← value
    let nodes ← trie.nodes.modify node fun n =>
      { n with value := some (.copied trie.blocks v), vsize := vsize, isCopy := true }
    some { trie with nodes := nodes, blocks := trie.blocks + 1 }
  else
    let nodes ← trie.nodes.modify node fun n =>
      { n with value := value.map .given, vsize := vsize, isCopy := false }
    some { trie with nodes := nodes }

/-- The first loop of `trie_insert`: the last node on the way of the key, and what
is left of the key there. -/
def followKey (nodes : Heap (TrieNode V)) : Addr → List UInt8 → Option (Addr × List UInt8)
  | node, [] => some (node, [])
  | node, c :: key => do
      let n ← nodes node
      let i ← childIndex c
      match n.child i with
      | some tmp => followKey nodes tmp key
      | none => some (node, c :: key)

/-- The second loop of `trie_insert`: a new node for each byte that is left. -/
def extendKey : Heap (TrieNode V) → Addr → List UInt8 → ℕ →
    Option (Heap (TrieNode V) × Addr × ℕ)
  | nodes, node, [], newNodes => some (nodes, node, newNodes)
  | nodes, node, c :: key, newNodes => do
      let i ← childIndex c
      let (nodes, tmp) := nodes.alloc { newNode with parent := some node, pidx := c }
      let nodes ← nodes.modify node fun n =>
        { n.setChild i (some tmp) with numChildren := n.numChildren + 1 }
      extendKey nodes tmp key (newNodes + 1)

/-- `trie_insert`. -/
def trieInsert (trie : Trie V) (key : List UInt8) (value : Option V) (vsize : ℕ)
    (copy : Bool) : Option (Trie V × ℕ) := do
  let (node, rest) ← followKey trie.nodes trie.root key
  let (nodes, node, newNodes) ← extendKey trie.nodes node rest 0
  let trie := { trie with
    nodes := nodes
    count := if newNodes ≠ 0 then trie.count + 1 else trie.count
    nodeCount := trie.nodeCount + newNodes }
  let trie ← trieNodeSetValue trie node value vsize copy
  some (trie, newNodes)

/-! ## Finding and removing -/

/-- The loop of `trie_find_internal`. -/
def findFrom (nodes : Heap (TrieNode V)) : Option Addr → List UInt8 → Option (Option Addr)
  | none, _ => some none
  | some node, [] => some (some node)
  | some node, c :: key => do
      let n ← nodes node
      let i ← childIndex c
      findFrom nodes (n.child i) key

/-- `trie_find_internal`. -/
def trieFindInternal (trie : Trie V) (key : List UInt8) : Option (Option Addr) :=
  findFrom trie.nodes (some trie.root) key

/-- `trie_find`: the value, and what is written to `*vsize`, if anything. -/
def trieFind (trie : Trie V) (key : List UInt8) : Option (Option (ValuePtr V) × Option ℕ) := do
  match ← trieFindInternal trie key with
  | none => some (none, none)
  | some node =>
      let n ← trie.nodes node
      some (n.value, some n.vsize)

/-- What `trie_remove` returns and writes through its pointers. -/
structure Removed (V : Type) where
  numNodes : ℤ
  value : Option (ValuePtr V)
  vsize : Option ℕ

/-- `trie_remove`; the flag says whether the caller passed a pointer for the value. -/
def trieRemove (trie : Trie V) (key : List UInt8) (wantsValue : Bool) :
    Option (Trie V × Removed V) := do
  match ← trieFindInternal trie key with
  | none => some (trie, ⟨0, none, none⟩)
  | some node =>
      let n ← trie.nodes node
      let freeValueCb := if wantsValue then false else trie.freeValueCb
      let trie' ← trieNodeDestroy freeValueCb trie.nodes.brk trie node
      some (trie', ⟨trie.nodeCount - trie'.nodeCount, if wantsValue then n.value else none,
        some n.vsize⟩)

/-- What the two functions that find first return, with the previous value and its
size. -/
structure Found (V : Type) where
  newNodes : ℕ
  prevValue : Option (ValuePtr V)
  prevVsize : Option ℕ

/-- `trie_find_or_insert`. -/
def trieFindOrInsert (trie : Trie V) (key : List UInt8) (value : Option V) (vsize : ℕ)
    (copy : Bool) : Option (Trie V × Found V) := do
  match ← trieFindInternal trie key with
  | none =>
      let (trie, newNodes) ← trieInsert trie key value vsize copy
      some (trie, ⟨newNodes, none, none⟩)
  | some node =>
      let n ← trie.nodes node
      some (trie, ⟨0, n.value, some n.vsize⟩)

/-- `trie_find_and_insert`. -/
def trieFindAndInsert (trie : Trie V) (key : List UInt8) (value : Option V) (vsize : ℕ)
    (copy : Bool) : Option (Trie V × Found V) := do
  match ← trieFindInternal trie key with
  | some node =>
      let n ← trie.nodes node
      let trie ← trieNodeSetValue trie node value vsize copy
      some (trie, ⟨0, n.value, some n.vsize⟩)
  | none =>
      let (trie, newNodes) ← trieInsert trie key value vsize copy
      some (trie, ⟨newNodes, none, none⟩)

end Trie
end LibHL
