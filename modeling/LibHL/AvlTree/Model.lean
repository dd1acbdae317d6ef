import LibHL.Support.SearchTree

/-!
# The AVL tree of `avltree.c`

Nodes are heap cells with two children, a parent, a key, a value and the heights of the
two subtrees as far as the tree knows them.  The code for the left side of a node and
the code for the right side are the same with the sides exchanged, and are one
definition here.  Loops carry a bound on their number of rounds; a loop that is cut off
has no result.  Heights do not overflow, and allocations succeed.
-/

namespace LibHL

/-- What `avlt_node_t` stores besides its links. -/
structure AvltData (K V : Type) where
  key : K
  value : Option V
  hl : ℤ
  hr : ℤ
  deriving DecidableEq

/-- `avlt_node_t`. -/
abbrev AvltNode (K V : Type) := LinkedNode (AvltData K V)

/-- `avlt_t`, without the node counter, which the source never changes. -/
structure Avlt (K V : Type) where
  nodes : Heap (AvltNode K V)
  root : Option Addr
  freeValueCb : Bool

namespace AvltData

variable {K V : Type}

/-- The height stored for a side. -/
def h (d : AvltData K V) : Side → ℤ
  | .left => d.hl
  | .right => d.hr

/-- Store a height for a side. -/
def setH (d : AvltData K V) (s : Side) (v : ℤ) : AvltData K V :=
  match s with
  | .left => { d with hl := v }
  | .right => { d with hr := v }

/-- `MAX(node->hl, node->hr) + 1`. -/
def height (d : AvltData K V) : ℤ := max d.hl d.hr + 1

/-- The key and the value. -/
def entry (d : AvltData K V) : K × Option V := (d.key, d.value)

end AvltData

namespace AvlTree

variable {K V : Type}

/-- `avlt_create`. -/
def avltCreate (freeValueCb : Bool) : Avlt K V := ⟨Heap.empty, none, freeValueCb⟩

/-- `avlt_node_create`. -/
def avltNodeCreate (nodes : Heap (AvltNode K V)) (key : K) (value : Option V) :
    Heap (AvltNode K V) × Addr :=
  nodes.alloc ⟨none, none, none, ⟨key, value, 0, 0⟩⟩

/-- The height of the subtree behind a pointer, as its root has it. -/
def storedHeight (nodes : Heap (AvltNode K V)) : Option Addr → Option ℤ
  | none => some 0
  | some a => do
      let n ← nodes a
      some n.data.height

/-! ## Rotations and balancing -/

/-- The end of a rotation: the parent, if there is one, gets `up` in the place of `node`,
and the height that `up` has.  It looks for `node` on side `s` first. -/
def replaceChild (s : Side) (nodes : Heap (AvltNode K V)) (parent : Option Addr)
    (node up : Addr) (height : ℤ) : Option (Heap (AvltNode K V)) :=
  match parent with
  | none => some nodes
  | some parent =>
      nodes.modify parent fun p =>
        let side := p.sideOf s (some node)
        (p.setChild side (some up)).mapData (·.setH side height)

/-- `avlt_rotate_left` and `avlt_rotate_right`: the node goes down on side `s`, and its
child on the other side takes its place. -/
def rotate (s : Side) (nodes : Heap (AvltNode K V)) (node : Addr) :
    Option (Heap (AvltNode K V)) := do
  let n ← nodes node
  match n.child s.other with
  | none => some nodes
  | some up => do
      let m ← nodes up
      let inner := m.child s
      let parent := n.parent
      let nodes ← nodes.modify up (·.setChild s (some node))
      let nodes ← nodes.modify node (·.setParent (some up))
      let nodes ← nodes.modify up (·.setParent parent)
      let nodes ← nodes.modify node (·.setChild s.other inner)
      let nodes ← setParentOf nodes inner (some node)
      let hinner ← storedHeight nodes inner
      let nodes ← nodes.modify node (·.mapData (·.setH s.other hinner))
      let hnode ← storedHeight nodes (some node)
      let nodes ← nodes.modify up (·.mapData (·.setH s hnode))
      let hup ← storedHeight nodes (some up)
      replaceChild s nodes parent node up hup

/-- `avlt_rotate_left`. -/
def avltRotateLeft (nodes : Heap (AvltNode K V)) (node : Addr) :
    Option (Heap (AvltNode K V)) :=
  rotate .left nodes node

/-- `avlt_rotate_right`. -/
def avltRotateRight (nodes : Heap (AvltNode K V)) (node : Addr) :
    Option (Heap (AvltNode K V)) :=
  rotate .right nodes node

/-- Take the height for a side from the child there. -/
def refreshHeight (s : Side) (nodes : Heap (AvltNode K V)) (node : Addr) :
    Option (Heap (AvltNode K V)) := do
  let n ← nodes node
  let height ← storedHeight nodes (n.child s)
  nodes.modify node (·.mapData (·.setH s height))

/-- The first rotation of the double cases: the child on the heavy side is turned
around if its inner side is higher by exactly one. -/
def turnChild (s : Side) (nodes : Heap (AvltNode K V)) (node : Addr) :
    Option (Heap (AvltNode K V)) := do
  let n ← nodes node
  match n.child s.other with
  | none => some nodes
  | some child => do
      let m ← nodes child
      if m.data.h s - m.data.h s.other = 1 then rotate s.other nodes child
      else some nodes

/-- A node that is too high on one side goes down on the other side `s`.  The loop
stays at the node as long as it is still out of balance. -/
def lower (s : Side) (tree : Avlt K V) (node : Addr) : Option (Avlt K V × Option Addr) := do
  let nodes ← turnChild s tree.nodes node
  let nodes ← rotate s nodes node
  let n ← nodes node
  let root := if tree.root = some node then n.parent else tree.root
  let factor := n.data.hl - n.data.hr
  some ({ tree with nodes := nodes, root := root },
    if -1 ≤ factor ∧ factor ≤ 1 then n.parent else some node)

/-- One round of the loop of `avlt_balance`: the tree and the node to go on with. -/
def balanceRound (tree : Avlt K V) (node : Addr) : Option (Avlt K V × Option Addr) := do
  let nodes ← refreshHeight .left tree.nodes node
  let nodes ← refreshHeight .right nodes node
  let n ← nodes node
  let tree := { tree with nodes := nodes }
  let factor := n.data.hl - n.data.hr
  if factor ≤ -2 then lower .left tree node
  else if 2 ≤ factor then lower .right tree node
  else some (tree, n.parent)

/-- `avlt_balance`, with at most `fuel` rounds. -/
def balanceLoop : ℕ → Avlt K V → Option Addr → Option (Avlt K V)
  | _, tree, none => some tree
  | 0, _, some _ => none
  | fuel + 1, tree, some node => do
      let r ← balanceRound tree node
      balanceLoop fuel r.1 r.2

/-- `avlt_balance`.  The bound on the rounds is one that is never reached. -/
def avltBalance (tree : Avlt K V) (node : Addr) : Option (Avlt K V) :=
  balanceLoop (4 * (tree.nodes.brk + 1) ^ 2) tree (some node)

/-! ## Adding -/

/-- A new leaf below `cur`. -/
def attach (s : Side) (nodes : Heap (AvltNode K V)) (cur : Addr) (key : K)
    (value : Option V) : Option (Heap (AvltNode K V)) := do
  let (nodes, new) := avltNodeCreate nodes key value
  let nodes ← nodes.modify cur (·.setChild s (some new))
  let nodes ← nodes.modify new (·.setParent (some cur))
  nodes.modify cur (·.mapData fun d => d.setH s (d.h s + 1))

/-- The inner subtree of `child` becomes the new node's subtree on the other side. -/
def moveInner (s : Side) (nodes : Heap (AvltNode K V)) (new child inner : Addr) :
    Option (Heap (AvltNode K V)) := do
  let nodes ← nodes.modify new (·.setChild s.other (some inner))
  let nodes ← nodes.modify inner (·.setParent (some new))
  let nodes ← nodes.modify child fun m =>
    (m.setChild s.other none).mapData (·.setH s.other 0)
  let i ← nodes inner
  nodes.modify new (·.mapData (·.setH s.other i.data.height))

/-- A new node between `cur` and its child, and above the inner subtree of the child if
that has to move. -/
def splice (s : Side) (nodes : Heap (AvltNode K V)) (cur child : Addr) (key : K)
    (value : Option V) (moved : Option Addr) : Option (Heap (AvltNode K V)) := do
  let (nodes, new) := avltNodeCreate nodes key value
  let nodes ← nodes.modify cur (·.setChild s (some new))
  let m ← nodes child
  let nodes ← nodes.modify new fun n =>
    ((n.setParent m.parent).setChild s (some child)).mapData (·.setH s m.data.height)
  let nodes ← nodes.modify child (·.setParent (some new))
  match moved with
  | none => some nodes
  | some inner => moveInner s nodes new child inner

variable (cmp : K → K → ℤ)

/-- How the key behind a pointer compares with `key`; none for a null pointer. -/
def compareAt (nodes : Heap (AvltNode K V)) (key : K) : Option Addr → Option (Option ℤ)
  | none => some none
  | some a => do
      let n ← nodes a
      some (some (cmp n.data.key key))

/-- What the loop of `avlt_add` does at a node that the new key lies on side `s` of. -/
inductive Place where
  | descend (child : Addr)
  | attach
  | splice (child : Addr) (moved : Option Addr)
  | present
  deriving DecidableEq

/-- The decision of the loop of `avlt_add` at a node: it looks at the child on side `s`
and at the inner child of that child, and no deeper. -/
def place (s : Side) (nodes : Heap (AvltNode K V)) (cur : Addr) (key : K) :
    Option Place := do
  let n ← nodes cur
  match n.child s with
  | none => some .attach
  | some child => do
      let m ← nodes child
      let inner := m.child s.other
      if Toward s.other (cmp m.data.key key) then some (.descend child)
      else do
        let c ← compareAt cmp nodes key inner
        if Toward s (cmp m.data.key key) ∧ c ≠ some 0 then
          some (.splice child (if c.any fun c => Toward s.other c then inner else none))
        else some .present

/-- The loop of `avlt_add`: the nodes and where balancing starts, or nothing if the key
is taken to be present. -/
def addFrom (key : K) (value : Option V) :
    ℕ → Heap (AvltNode K V) → Addr → Option (Option (Heap (AvltNode K V) × Addr))
  | 0, _, _ => none
  | fuel + 1, nodes, cur => do
      let n ← nodes cur
      let c := cmp key n.data.key
      if c = 0 then some none
      else do
        let s : Side := if c < 0 then .left else .right
        match ← place cmp s nodes cur key with
        | .descend child => addFrom key value fuel nodes child
        | .attach => do
            let nodes ← attach s nodes cur key value
            some (some (nodes, cur))
        | .splice child moved => do
            let nodes ← splice s nodes cur child key value moved
            some (some (nodes, child))
        | .present => some none

/-- `avlt_add`. -/
def avltAdd (tree : Avlt K V) (key : K) (value : Option V) : Option (Avlt K V × ℤ) :=
  match tree.root with
  | none =>
      let (nodes, new) := avltNodeCreate tree.nodes key value
      some ({ tree with nodes := nodes, root := some new }, 0)
  | some root => do
      match ← addFrom cmp key value (tree.nodes.brk + 1) tree.nodes root with
      | none => some (tree, -1)
      | some (nodes, cur) => do
          let tree ← avltBalance { tree with nodes := nodes } cur
          some (tree, 0)

/-! ## Removing -/

/-- Follow the children on side `s` to the last one. -/
def last (s : Side) (nodes : Heap (AvltNode K V)) : ℕ → Addr → Option Addr
  | 0, _ => none
  | fuel + 1, a => do
      let n ← nodes a
      match n.child s with
      | none => some a
      | some c => last s nodes fuel c

/-- `avlt_find_prev` and `avlt_find_next`: the neighbour below, on side `s`. -/
def findNear (s : Side) (nodes : Heap (AvltNode K V)) (node : Addr) :
    Option (Option Addr) := do
  let n ← nodes node
  match n.child s with
  | none => some none
  | some c => do
      let a ← last s.other nodes (nodes.brk + 1) c
      some (some a)

/-- `avlt_find_next`. -/
def avltFindNext (nodes : Heap (AvltNode K V)) (node : Addr) : Option (Option Addr) :=
  findNear .right nodes node

/-- `avlt_find_prev`. -/
def avltFindPrev (nodes : Heap (AvltNode K V)) (node : Addr) : Option (Option Addr) :=
  findNear .left nodes node

/-- The neighbour below a node with two children, on its higher side. -/
def findNeighbour (nodes : Heap (AvltNode K V)) (cur : Addr) (d : AvltData K V) :
    Option (Option Addr) :=
  if d.hr < d.hl then avltFindPrev nodes cur else avltFindNext nodes cur

/-- The search of `avlt_remove`. -/
def findFrom (key : K) : ℕ → Heap (AvltNode K V) → Option Addr → Option (Option Addr)
  | _, _, none => some none
  | 0, _, some _ => none
  | fuel + 1, nodes, some cur => do
      let n ← nodes cur
      if cmp n.data.key key < 0 then findFrom key fuel nodes n.right
      else if 0 < cmp n.data.key key then findFrom key fuel nodes n.left
      else some (some cur)

/-- The two children case of `avlt_remove`: the node exchanges its key and its value with
a neighbour from its higher side, which is removed in its place.  Nothing if there is no
neighbour. -/
def exchange (nodes : Heap (AvltNode K V)) (cur : Addr) :
    Option (Option (Heap (AvltNode K V) × Addr)) := do
  let n ← nodes cur
  if n.left.isSome ∧ n.right.isSome then do
    match ← findNeighbour nodes cur n.data with
    | none => some none
    | some p => do
        let m ← nodes p
        let nodes ← nodes.modify cur
          (·.mapData fun d => { d with key := m.data.key, value := m.data.value })
        let nodes ← nodes.modify p
          (·.mapData fun d => { d with key := n.data.key, value := n.data.value })
        some (some (nodes, p))
  else some (some (nodes, cur))

/-- Unlink a node with at most one child, and balance the tree from its parent on. -/
def unlink (tree : Avlt K V) (cur : Addr) : Option (Avlt K V) := do
  let n ← tree.nodes cur
  if n.left.isNone ∨ n.right.isNone then
    match n.parent with
    | some parent => do
        let nodes ← tree.nodes.modify parent fun p =>
          if p.left = some cur then p.setChild .left (n.left.or n.right)
          else p.setChild .right (n.right.or n.left)
        let nodes ← setParentOf nodes (n.left.or n.right) (some parent)
        avltBalance { tree with nodes := nodes } parent
    | none => do
        let nodes ← setParentOf tree.nodes (n.left.or n.right) none
        some { tree with nodes := nodes, root := n.left.or n.right }
  else some tree

/-- What `avlt_remove` answers: the return value, what it stores for the caller, and
what it passes to the callback. -/
structure RemoveResult (V : Type) where
  rc : ℤ
  value : Option (Option V)
  freed : Option V
  deriving DecidableEq

/-- The answer for a node that was removed: its value goes to the caller, or to the
callback if there is one. -/
def handOver (freeValueCb wantsValue : Bool) (value : Option V) : RemoveResult V where
  rc := 0
  value := if wantsValue then some value else none
  freed := if wantsValue = false ∧ freeValueCb = true then value else none

/-- `avlt_remove`; `wantsValue` tells whether the caller passed a place for the value. -/
def avltRemove (tree : Avlt K V) (key : K) (wantsValue : Bool) :
    Option (Avlt K V × RemoveResult V) := do
  match ← findFrom cmp key (tree.nodes.brk + 1) tree.nodes tree.root with
  | none => some (tree, ⟨0, none, none⟩)
  | some cur => do
      match ← exchange tree.nodes cur with
      | none => some (tree, ⟨-1, none, none⟩)
      | some (nodes, cur) => do
          let tree ← unlink { tree with nodes := nodes } cur
          let n ← tree.nodes cur
          let nodes ← tree.nodes.free cur
          some ({ tree with nodes := nodes },
            handOver tree.freeValueCb wantsValue n.data.value)

/-! ## Runs -/

/-- A call on a tree. -/
inductive AvltOp (K V : Type) where
  | add (key : K) (value : Option V)
  | remove (key : K) (wantsValue : Bool)

/-- What a call answers. -/
inductive AvltAnswer (V : Type) where
  | added (rc : ℤ)
  | removed (result : RemoveResult V)
  deriving DecidableEq

/-- Perform a call. -/
def stepOp (tree : Avlt K V) : AvltOp K V → Option (Avlt K V × AvltAnswer V)
  | .add key value => (avltAdd cmp tree key value).map fun r => (r.1, .added r.2)
  | .remove key wantsValue =>
      (avltRemove cmp tree key wantsValue).map fun r => (r.1, .removed r.2)

end AvlTree
end LibHL
