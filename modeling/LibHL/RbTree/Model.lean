import LibHL.Support.RedBlack
import LibHL.Support.SearchTree

/-!
# The red-black tree of `rbtree.c`

Nodes are heap cells with two children, a parent, a colour, a key, the length of the key
and a value.  The code for the left side of a node and the code for the right side are the
same with the sides exchanged, and are one definition here.  A null or dangling pointer, or
a key that is shorter than its length says, gives no result.  Recursions carry a bound on
their depth; one that is cut off has no result.
-/

namespace LibHL

/-- What `rbt_node_t` stores besides its links.  `key` is the buffer behind the key pointer,
and `klen` the length that the node has for it. -/
structure RbtData (V : Type) where
  color : Color
  key : List UInt8
  klen : ℕ
  value : Option V
  deriving DecidableEq

/-- `rbt_node_t`. -/
abbrev RbtNode (V : Type) := LinkedNode (RbtData V)

/-- `rbt_t`, with the values passed to the callback so far, and the static variable of
`rbt_remove`. -/
structure Rbt (V : Type) where
  nodes : Heap (RbtNode V)
  root : Option Addr
  freeValueCb : Bool
  freed : List (Option V)
  prevnext : ℕ

namespace RbtData

variable {V : Type}

/-- The bytes that a comparison or a copy reads. -/
def bytes (d : RbtData V) : Option (List UInt8) :=
  if d.klen ≤ d.key.length then some (d.key.take d.klen) else none

/-- Change the colour. -/
def paint (d : RbtData V) (c : Color) : RbtData V := { d with color := c }

/-- The key, its length and the value. -/
def entry (d : RbtData V) : List UInt8 × ℕ × Option V := (d.key, d.klen, d.value)

end RbtData

namespace RbTree

variable {V : Type}

/-- `rbt_create`. -/
def rbtCreate (freeValueCb : Bool) (prevnext : ℕ) : Rbt V :=
  ⟨Heap.empty, none, freeValueCb, [], prevnext⟩

/-- The colour behind a pointer: null pointers are black, for `IS_BLACK` and `IS_RED`. -/
def colorOf (nodes : Heap (RbtNode V)) : Option Addr → Option Color
  | none => some .black
  | some a => do
      let n ← nodes a
      some n.data.color

/-- `PAINT_BLACK` and `PAINT_RED`. -/
def paint (nodes : Heap (RbtNode V)) (c : Color) : Option Addr → Option (Heap (RbtNode V))
  | none => some nodes
  | some a => nodes.modify a (·.mapData (·.paint c))

/-- `rbt_grandparent`. -/
def rbtGrandparent (nodes : Heap (RbtNode V)) (node : Addr) : Option (Option Addr) := do
  let n ← nodes node
  match n.parent with
  | none => some none
  | some parent => do
      let p ← nodes parent
      some p.parent

/-- `rbt_uncle`. -/
def rbtUncle (nodes : Heap (RbtNode V)) (node : Addr) : Option (Option Addr) := do
  match ← rbtGrandparent nodes node with
  | none => some none
  | some gp => do
      let n ← nodes node
      let g ← nodes gp
      some (g.child (g.sideOf .left n.parent).other)

/-- Where a pointer to a node is kept, `up` takes its place: in the parent, on the side where
the node is found, the left one being looked at first. -/
def relink (nodes : Heap (RbtNode V)) (parent : Option Addr) (node up : Option Addr) :
    Option (Heap (RbtNode V)) :=
  match parent with
  | none => some nodes
  | some parent => nodes.modify parent fun p => p.setChild (p.sideOf .left node) up

/-- `rbt_rotate_left` and `rbt_rotate_right`: the node goes down on side `s`, and its child
on the other side takes its place. -/
def rotate (s : Side) (tree : Rbt V) (node : Addr) : Option (Rbt V) := do
  let n ← tree.nodes node
  match n.child s.other with
  | none => do
      let nodes ← tree.nodes.modify node fun n => (n.setChild s.other none).setParent none
      some { tree with nodes := nodes, root := some node }
  | some p => do
      let m ← tree.nodes p
      let inner := m.child s
      let nodes ← tree.nodes.modify node (·.setChild s.other inner)
      let nodes ← nodes.modify p (·.setChild s (some node))
      let nodes ← setParentOf nodes inner (some node)
      let parent := n.parent
      let nodes ← nodes.modify node (·.setParent (some p))
      let nodes ← nodes.modify p (·.setParent parent)
      let root := if parent.isNone then some p else tree.root
      let nodes ← relink nodes parent (some node) (some p)
      some { tree with nodes := nodes, root := root }

/-- `rbt_rotate_left`. -/
def rbtRotateLeft (tree : Rbt V) (node : Addr) : Option (Rbt V) := rotate .left tree node

/-- `rbt_rotate_right`. -/
def rbtRotateRight (tree : Rbt V) (node : Addr) : Option (Rbt V) := rotate .right tree node

/-! ## Adding -/

variable (cmp : List UInt8 → List UInt8 → ℤ)

/-- The case of `rbt_add_internal` that the key is present: the new node takes the place of
the node that has it. -/
def replaceNode [DecidableEq V] (tree : Rbt V) (cur new : Addr) : Option (Rbt V) := do
  let n ← tree.nodes cur
  let m ← tree.nodes new
  let nodes ← tree.nodes.modify new fun m =>
    (m.setParent n.parent).mapData (·.paint n.data.color)
  let nodes ← relink nodes n.parent (some cur) (some new)
  let nodes ← nodes.modify new fun m => (m.setChild .left n.left).setChild .right n.right
  let nodes ← setParentOf nodes n.left (some new)
  let nodes ← setParentOf nodes n.right (some new)
  let nodes ← nodes.free cur
  let freed :=
    if m.data.value ≠ n.data.value ∧ tree.freeValueCb = true then tree.freed ++ [n.data.value]
    else tree.freed
  some { tree with nodes := nodes, freed := freed }

/-- `rbt_add_internal`. -/
def rbtAddInternal [DecidableEq V] : ℕ → Rbt V → Addr → Addr → Option (Rbt V × ℤ)
  | 0, _, _, _ => none
  | fuel + 1, tree, cur, new => do
      let n ← tree.nodes cur
      let m ← tree.nodes new
      let k ← n.data.bytes
      let l ← m.data.bytes
      let rc := cmp k l
      if rc = 0 then do
        let tree ← replaceNode tree cur new
        some (tree, 1)
      else do
        let s : Side := if 0 < rc then .left else .right
        match n.child s with
        | some child => rbtAddInternal fuel tree child new
        | none => do
            let nodes ← tree.nodes.modify cur (·.setChild s (some new))
            let nodes ← nodes.modify new (·.setParent (some cur))
            some ({ tree with nodes := nodes }, 0)

/-- The side on which case 4 of `rbt_add` turns the parent down: the node is an inner
grandchild if there is one. -/
def innerSide (n p g : RbtNode V) (node : Addr) : Option Side :=
  if p.right = some node ∧ n.parent = g.left then some .left
  else if p.left = some node ∧ n.parent = g.right then some .right
  else none

/-- Case 4 of `rbt_add`. -/
def straighten (tree : Rbt V) (node parent grandparent : Addr) :
    Option (Rbt V × Option Addr) := do
  let n ← tree.nodes node
  let p ← tree.nodes parent
  let g ← tree.nodes grandparent
  match innerSide n p g node with
  | none => some (tree, some node)
  | some s => do
      let tree ← rotate s tree parent
      let n ← tree.nodes node
      some (tree, n.child s)

/-- Case 5 of `rbt_add`. -/
def liftParent (tree : Rbt V) (node : Addr) (rc : ℤ) : Option (Rbt V × ℤ) := do
  let grandparent ← rbtGrandparent tree.nodes node
  let n ← tree.nodes node
  match n.parent with
  | none => some (tree, -1)
  | some parent => do
      let nodes ← paint tree.nodes .black (some parent)
      let nodes ← paint nodes .red grandparent
      let p ← nodes parent
      let gp ← grandparent
      let tree ← rotate (p.sideOf .left (some node)).other { tree with nodes := nodes } gp
      some (tree, rc)

/-- The cases of `rbt_add` for a red node; `readd` adds a key again. -/
def settle (readd : Rbt V → List UInt8 → Option V → Option (Rbt V × ℤ)) (tree : Rbt V)
    (node : Addr) (rc : ℤ) : Option (Rbt V × ℤ) := do
  let n ← tree.nodes node
  match n.parent with
  | none => do
      -- case 1
      let nodes ← paint tree.nodes .black (some node)
      some ({ tree with nodes := nodes, root := some node }, rc)
  | some parent => do
      let p ← tree.nodes parent
      -- case 2
      if p.data.color = .black then some (tree, rc)
      else do
        let uncle ← rbtUncle tree.nodes node
        let grandparent ← rbtGrandparent tree.nodes node
        let ucolor ← colorOf tree.nodes uncle
        if ucolor = .red then do
          -- case 3
          let nodes ← paint tree.nodes .black (some parent)
          let nodes ← paint nodes .black uncle
          match grandparent with
          | none => some ({ tree with nodes := nodes }, rc)
          | some gp => do
              let nodes ← paint nodes .red (some gp)
              let g ← nodes gp
              let key ← g.data.bytes
              let r ← readd { tree with nodes := nodes } key g.data.value
              some (r.1, rc)
        else match grandparent with
        | none => some (tree, rc)
        | some gp => do
            let (tree, node) ← straighten tree node parent gp
            let node ← node
            liftParent tree node rc

/-- What `rbt_add` does after the node is in the tree: a node that is black by now has
replaced another one. -/
def finishAdd (readd : Rbt V → List UInt8 → Option V → Option (Rbt V × ℤ)) (tree : Rbt V)
    (node : Addr) (rc : ℤ) : Option (Rbt V × ℤ) := do
  let n ← tree.nodes node
  if n.data.color = .black then
    some (if n.parent.isNone then { tree with root := some node } else tree, 1)
  else settle readd tree node rc

/-- `rbt_add`, with at most `fuel` keys added again; `mem` tells which allocations
succeed. -/
def addLoop [DecidableEq V] : ℕ → (ℕ → Bool) → Rbt V → List UInt8 → Option V →
    Option (Rbt V × ℤ)
  | 0, _, _, _, _ => none
  | fuel + 1, mem, tree, key, value =>
      if mem 0 = false then some (tree, -1)
      else do
        let (nodes, node) := tree.nodes.alloc ⟨none, none, none, ⟨.red, key, key.length, value⟩⟩
        if mem 1 = false then do
          let nodes ← nodes.free node
          some ({ tree with nodes := nodes }, -1)
        else match tree.root with
        | none => do
            let nodes ← paint nodes .black (some node)
            some ({ tree with nodes := nodes, root := some node }, 0)
        | some root => do
            let (tree, rc) ←
              rbtAddInternal cmp (nodes.brk + 1) { tree with nodes := nodes } root node
            finishAdd (addLoop fuel fun i => mem (i + 2)) tree node rc

/-- `rbt_add`.  The bound is one that is never reached. -/
def rbtAdd [DecidableEq V] (mem : ℕ → Bool) (tree : Rbt V) (key : List UInt8)
    (value : Option V) : Option (Rbt V × ℤ) :=
  addLoop cmp (tree.nodes.brk + 1) mem tree key value

/-! ## Finding -/

/-- `rbt_find_internal`. -/
def rbtFindInternal (key : List UInt8) : ℕ → Heap (RbtNode V) → Option Addr →
    Option (Option Addr)
  | _, _, none => some none
  | 0, _, some _ => none
  | fuel + 1, nodes, some node => do
      let n ← nodes node
      let k ← n.data.bytes
      let rc := cmp k key
      if rc = 0 then some (some node)
      else rbtFindInternal key fuel nodes (n.child (if 0 < rc then .left else .right))

/-- What `rbt_find` and `rbt_remove` answer: the return value, and what they store for the
caller. -/
structure RbtAnswer (V : Type) where
  rc : ℤ
  value : Option (Option V)
  deriving DecidableEq

/-- `rbt_find`. -/
def rbtFind (tree : Rbt V) (key : List UInt8) : Option (RbtAnswer V) := do
  match ← rbtFindInternal cmp key (tree.nodes.brk + 1) tree.nodes tree.root with
  | none => some ⟨-1, none⟩
  | some node => do
      let n ← tree.nodes node
      some ⟨0, some n.data.value⟩

/-! ## Repairing the colours after a removal -/

/-- `rbt_sibling`. -/
def rbtSibling (nodes : Heap (RbtNode V)) (node : Addr) : Option (Option Addr) := do
  let n ← nodes node
  let parent ← n.parent
  let p ← nodes parent
  some (p.child (p.sideOf .left (some node)).other)

/-- Delete case 2: a red sibling is lifted above the parent. -/
def liftSibling (tree : Rbt V) (node parent : Addr) (sibling : Option Addr) :
    Option (Rbt V) := do
  let c ← colorOf tree.nodes sibling
  if c = .red then do
    let nodes ← paint tree.nodes .red (some parent)
    let nodes ← paint nodes .black sibling
    let p ← nodes parent
    rotate (p.sideOf .left (some node)) { tree with nodes := nodes } parent
  else some tree

/-- The sibling is there and is black, and so are its children. -/
def blackFamily (nodes : Heap (RbtNode V)) : Option Addr → Option Bool
  | none => some false
  | some sibling => do
      let m ← nodes sibling
      let l ← colorOf nodes m.left
      let r ← colorOf nodes m.right
      some (m.data.color = .black ∧ l = .black ∧ r = .black)

/-- Delete case 5: the red inner child of a black sibling is lifted above it. -/
def straightenSibling (s : Side) (tree : Rbt V) : Option Addr → Option (Rbt V)
  | none => some tree
  | some sibling => do
      let m ← tree.nodes sibling
      let outer ← colorOf tree.nodes (m.child s.other)
      let inner ← colorOf tree.nodes (m.child s)
      if m.data.color = .black ∧ outer = .black ∧ inner = .red then do
        let nodes ← paint tree.nodes .red (some sibling)
        let nodes ← paint nodes .black (m.child s)
        rotate s.other { tree with nodes := nodes } sibling
      else some tree

/-- The colours of delete case 6. -/
def paintLast (s : Side) (nodes : Heap (RbtNode V)) (parent : Addr) (sibling : Option Addr) :
    Option (Heap (RbtNode V)) := do
  let p ← nodes parent
  let nodes ← paint nodes p.data.color sibling
  let nodes ← paint nodes .black (some parent)
  match sibling with
  | none => some nodes
  | some sibling => do
      let m ← nodes sibling
      paint nodes .black (m.child s.other)

/-- `rbt_paint_onremove`, with at most `fuel` levels.  The sibling is looked up once, before
delete case 2 moves it. -/
def rbtPaintOnremove : ℕ → Rbt V → Option Addr → Option (Rbt V)
  | _, tree, none => some tree
  | 0, _, some _ => none
  | fuel + 1, tree, some node => do
      let n ← tree.nodes node
      -- delete case 1
      match n.parent with
      | none => some tree
      | some parent => do
          let sibling ← rbtSibling tree.nodes node
          let tree ← liftSibling tree node parent sibling
          let p ← tree.nodes parent
          let family ← blackFamily tree.nodes sibling
          if p.data.color = .black ∧ family = true then do
            -- delete case 3
            let nodes ← paint tree.nodes .red sibling
            rbtPaintOnremove fuel { tree with nodes := nodes } (some parent)
          else if p.data.color = .red ∧ family = true then do
            -- delete case 4
            let nodes ← paint tree.nodes .red sibling
            let nodes ← paint nodes .black (some parent)
            some { tree with nodes := nodes }
          else do
            let s := p.sideOf .left (some node)
            let tree ← straightenSibling s tree sibling
            -- delete case 6
            let nodes ← paintLast s tree.nodes parent sibling
            rotate s { tree with nodes := nodes } parent

/-! ## Removing -/

/-- Follow the children on side `s` to the last one. -/
def lastChild (s : Side) (nodes : Heap (RbtNode V)) : ℕ → Addr → Option Addr
  | 0, _ => none
  | fuel + 1, a => do
      let n ← nodes a
      match n.child s with
      | none => some a
      | some c => lastChild s nodes fuel c

/-- `rbt_find_prev` and `rbt_find_next`: the neighbour below, on side `s`. -/
def findNear (s : Side) (nodes : Heap (RbtNode V)) (node : Addr) : Option (Option Addr) := do
  let n ← nodes node
  match n.child s with
  | none => some none
  | some c => do
      let a ← lastChild s.other nodes (nodes.brk + 1) c
      some (some a)

/-- `rbt_find_prev`. -/
def rbtFindPrev (nodes : Heap (RbtNode V)) (node : Addr) : Option (Option Addr) :=
  findNear .left nodes node

/-- `rbt_find_next`. -/
def rbtFindNext (nodes : Heap (RbtNode V)) (node : Addr) : Option (Option Addr) :=
  findNear .right nodes node

/-- The value of a removed node goes to the caller, or to the callback if there is one. -/
def handOver (tree : Rbt V) (wantsValue : Bool) (value : Option V) : Rbt V × RbtAnswer V :=
  if wantsValue = true then (tree, ⟨0, some value⟩)
  else if tree.freeValueCb = true then ({ tree with freed := tree.freed ++ [value] }, ⟨0, none⟩)
  else (tree, ⟨0, none⟩)

/-- The side that `rbt_remove` takes the neighbour from. -/
def neighbourSide (prevnext : ℕ) : Side := if prevnext % 2 = 0 then .left else .right

/-- The neighbour gives its place to its only child.  The child's parent becomes the node
itself, wherever the neighbour was. -/
def unhook (s : Side) (nodes : Heap (RbtNode V)) (node n : Addr) :
    Option (Heap (RbtNode V)) := do
  let d ← nodes node
  let m ← nodes n
  let nodes ←
    if d.child s = some n then nodes.modify node (·.setChild s (m.child s))
    else do
      let parent ← m.parent
      nodes.modify parent (·.setChild s.other (m.child s))
  setParentOf nodes (m.child s) (some node)

/-- `rbt_remove` of a node with two children: the node takes over the key and the value of a
neighbour, but not the length of the key, and the neighbour is released.  `mem` tells
whether the buffer of the key can be resized. -/
def removeInner (mem : Bool) (tree : Rbt V) (node : Addr) (wantsValue : Bool) :
    Option (Rbt V × RbtAnswer V) := do
  let s := neighbourSide tree.prevnext
  let tree := { tree with prevnext := tree.prevnext + 1 }
  let d ← tree.nodes node
  let n ← findNear s tree.nodes node
  let n ← n
  if mem = false then some (tree, ⟨-1, none⟩)
  else do
    let m ← tree.nodes n
    let key ← m.data.bytes
    let nodes ← tree.nodes.modify node
      (·.mapData fun d => { d with key := key, value := m.data.value })
    let nodes ← unhook s nodes node n
    let nodes ← nodes.free n
    some (handOver { tree with nodes := nodes } wantsValue d.data.value)

/-- `rbt_remove` of a node with one child. -/
def removeUpper (tree : Rbt V) (node : Addr) (wantsValue : Bool) :
    Option (Rbt V × RbtAnswer V) := do
  let n ← tree.nodes node
  let child ← n.right.or n.left
  let nodes ← tree.nodes.modify child (·.setParent n.parent)
  let nodes ← relink nodes n.parent (some node) (some child)
  let c ← colorOf nodes (some child)
  let tree ←
    if n.data.color = .black then
      if c = .red then do
        let nodes ← paint nodes .black (some child)
        some { tree with nodes := nodes }
      else rbtPaintOnremove (nodes.brk + 1) { tree with nodes := nodes } (some child)
    else some { tree with nodes := nodes }
  let nodes ← tree.nodes.free node
  some (handOver { tree with nodes := nodes } wantsValue n.data.value)

/-- `rbt_remove` of a leaf.  The callback is not called for a null value. -/
def removeLeaf (tree : Rbt V) (node : Addr) (wantsValue : Bool) :
    Option (Rbt V × RbtAnswer V) := do
  let n ← tree.nodes node
  let nodes ← relink tree.nodes n.parent (some node) none
  let nodes ← nodes.free node
  some (if wantsValue = false ∧ n.data.value.isNone then ({ tree with nodes := nodes }, ⟨0, none⟩)
    else handOver { tree with nodes := nodes } wantsValue n.data.value)

/-- `rbt_remove`; `wantsValue` tells whether the caller passed a place for the value. -/
def rbtRemove (mem : Bool) (tree : Rbt V) (key : List UInt8) (wantsValue : Bool) :
    Option (Rbt V × RbtAnswer V) := do
  match ← rbtFindInternal cmp key (tree.nodes.brk + 1) tree.nodes tree.root with
  | none => some (tree, ⟨-1, none⟩)
  | some node => do
      let n ← tree.nodes node
      if n.left.isSome ∧ n.right.isSome then removeInner mem tree node wantsValue
      else if n.left.isSome ∨ n.right.isSome then removeUpper tree node wantsValue
      else removeLeaf tree node wantsValue

/-! ## Runs -/

/-- A call on a tree. -/
inductive RbtOp (V : Type) where
  | add (key : List UInt8) (value : Option V)
  | remove (key : List UInt8) (wantsValue : Bool)
  | find (key : List UInt8)

/-- What a call answers. -/
inductive RbtResult (V : Type) where
  | added (rc : ℤ)
  | removed (answer : RbtAnswer V)
  | found (answer : RbtAnswer V)
  deriving DecidableEq

/-- Perform a call.  Allocations succeed. -/
def stepOp [DecidableEq V] (tree : Rbt V) : RbtOp V → Option (Rbt V × RbtResult V)
  | .add key value => (rbtAdd cmp (fun _ => true) tree key value).map fun r => (r.1, .added r.2)
  | .remove key wantsValue =>
      (rbtRemove cmp true tree key wantsValue).map fun r => (r.1, .removed r.2)
  | .find key => (rbtFind cmp tree key).map fun r => (tree, .found r)

end RbTree
end LibHL
