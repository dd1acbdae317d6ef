import LibHL.HashTable.Model

/-!
# The graph of `graph.c`

Nodes are heap cells that own the list of their outgoing connections.  The graph finds a
node by its label through a hash table whose free callback is `graph_node_destroy`, so a
node dies when another one is stored under its label.

There is one graph, and every node in the heap belongs to it; the `graph` field of a node
is not repeated in it.  Choosers, contexts and values are opaque addresses.  A chooser
answers from the calls made so far in the same `graph_node_next`.
-/

namespace LibHL

/-- `graph_node_connection_t`. -/
structure Connection where
  destination : Addr
  chooser : Option Addr
  context : Option Addr
  deriving DecidableEq

/-- `graph_node_t`. -/
structure GraphNode where
  label : Key
  value : Option Addr
  vlen : ℕ
  connections : List Connection
  deriving DecidableEq

/-- `graph_t` with the nodes it allocated; `released` are the values passed to the free
callback. -/
structure Graph where
  label : Option Key
  nodes : HashTable
  freeValueCb : Bool
  errno : ℤ
  heap : Heap GraphNode
  released : List Addr

namespace Graph

/-- `EGRAPHNOERR`. -/
def eGraphNoErr : ℤ := 600

/-- `EGRAPHNONODE`. -/
def eGraphNoNode : ℤ := 601

/-- `EGRAPHNOLABEL`. -/
def eGraphNoLabel : ℤ := 602

/-- `EGRAPHTABLEERR`. -/
def eGraphTableErr : ℤ := 604

/-- `EGRAPHCONNECTIONNOTFOUND`. -/
def eGraphConnectionNotFound : ℤ := 605

/-- `sizeof(graph_node_t)`. -/
def sizeofNode : ℕ := 48

/-- A node pointer as the table stores it.  The table never looks at the bytes behind
it. -/
def nodeData (node : Addr) : Data where
  addr := node
  bytes := List.replicate sizeofNode 0

/-- `graph_create`. -/
def graphCreate (label : Option Key) (freeValueCb : Bool) (seed : UInt32) : Option Graph := do
  let nodes ← HashTable.htCreate 8 (1 <<< 16) true seed
  some {
    label := label
    nodes := nodes
    freeValueCb := freeValueCb
    errno := eGraphNoErr
    heap := Heap.empty
    released := [] }

/-- `graph_node_destroy`. -/
def graphNodeDestroy (g : Graph) (node : Addr) : Option Graph := do
  let n ← g.heap node
  let released := if g.freeValueCb then g.released ++ n.value.toList else g.released
  let heap ← g.heap.free node
  some { g with heap := heap, released := released }

/-- The calls of the table's free callback. -/
def runFreeItemCb (g : Graph) (pointers : List (Option Data)) : Option Graph :=
  pointers.foldlM (fun g p => p.bind fun d => g.graphNodeDestroy d.addr) g

/-- Take over the table that a call left, with what its free callback does. -/
def withNodes (g : Graph) (nodes : HashTable) : Option Graph :=
  { g with nodes := nodes }.runFreeItemCb (nodes.released.drop g.nodes.released.length)

/-- `graph_node_create`. -/
def graphNodeCreate (g : Graph) (label : Option Key) (value : Option Addr) (vlen : ℕ) :
    Graph × Option Addr :=
  match label with
  | none => ({ g with errno := eGraphNoLabel }, none)
  | some label =>
      let r := g.heap.alloc { label := label, value := value, vlen := vlen, connections := [] }
      ({ g with heap := r.1 }, some r.2)

/-- `graph_node_add`.  The node is used without a look at whether there is one. -/
def graphNodeAdd (g : Graph) (label : Option Key) (value : Option Addr) (vsize : ℕ) :
    Option (Graph × Option Addr) := do
  let created := g.graphNodeCreate label value vsize
  let node ← created.2
  let key ← label
  let (nodes, r) ← created.1.nodes.htSet key (some (nodeData node)) sizeofNode
  let g ← created.1.withNodes nodes
  if r.ret ≠ 0 then do
    let g ← { g with errno := eGraphTableErr }.graphNodeDestroy node
    some (g, none)
  else
    some (g, some node)

/-- `graph_node_get`. -/
def graphNodeGet (g : Graph) (label : Key) : Option (Graph × Option Addr) := do
  let (nodes, data, _) ← g.nodes.htGet label false
  let g ← g.withNodes nodes
  some (g, data.map Data.addr)

/-- `graph_node_label_get`. -/
def graphNodeLabelGet (g : Graph) (node : Addr) : Option Key :=
  (g.heap node).map GraphNode.label

/-- `graph_node_connect`. -/
def graphNodeConnect (g : Graph) (node1 node2 : Addr) (chooser context : Option Addr) :
    Option (Graph × ℤ) := do
  let heap ← g.heap.modify node1 fun n =>
    { n with
      connections := n.connections ++
        [{ destination := node2, chooser := chooser, context := context }] }
  some ({ g with heap := heap }, 0)

/-- `graph_node_disconnect`: remove the first connection to the second node. -/
def graphNodeDisconnect (g : Graph) (node1 node2 : Addr) : Option (Graph × ℤ) := do
  let n ← g.heap node1
  if n.connections.any fun c => c.destination = node2 then do
    let heap ← g.heap.modify node1 fun n =>
      { n with connections := n.connections.eraseP fun c => c.destination = node2 }
    some ({ g with heap := heap }, 0)
  else
    some ({ g with errno := eGraphConnectionNotFound }, -1)

/-! ## Following connections -/

/-- A call of a chooser. -/
structure ChooserCall where
  chooser : Addr
  node : Addr
  context : Option Addr
  deriving DecidableEq

/-- What the choosers answer, from the calls made so far. -/
abbrev ChooserAnswers := List ChooserCall → ℤ

/-- The state of the loop in `graph_node_next`. -/
structure Selection where
  calls : List ChooserCall
  weight : ℤ
  selected : Option Addr

/-- One round of the loop in `graph_node_next`. -/
def considerConnection (answers : ChooserAnswers) (node : Addr) (s : Selection)
    (connection : Connection) : Selection :=
  match connection.chooser with
  | some chooser =>
      let calls := s.calls ++ [{ chooser := chooser, node := node, context := connection.context }]
      let w := answers calls
      if w > s.weight then
        { calls := calls, weight := w, selected := some connection.destination }
      else
        { s with calls := calls }
  | none =>
      if s.weight = 0 then { s with selected := some connection.destination } else s

/-- `graph_node_next`. -/
def graphNodeNext (g : Graph) (answers : ChooserAnswers) (node : Addr) :
    Option (Option Addr) := do
  let n ← g.heap node
  let s := n.connections.foldl (considerConnection answers node)
    { calls := [], weight := 0, selected := none }
  some s.selected

/-- The loop of `graph_node_connections_get`: the destinations it stores.  The bound is
compared for equality, so a negative one is none. -/
def storeConnections (maxConnections : ℤ) : ℤ → List Connection → List Addr
  | _, [] => []
  | n, connection :: connections =>
      if n = maxConnections then []
      else connection.destination :: storeConnections maxConnections (n + 1) connections

/-- `graph_node_connections_get`, with or without an array to store into; the return value is
the length of the list. -/
def graphNodeConnectionsGet (g : Graph) (node : Addr) (connections : Bool)
    (maxConnections : ℤ) : Option (List Addr) :=
  if connections then do
    let n ← g.heap node
    some (storeConnections maxConnections 0 n.connections)
  else
    some []

/-- `graph_node_delete`.  The label argument is not used; the label of the node is read
through a pointer that is null so far. -/
def graphNodeDelete (g : Graph) (_label : Option Key) (connections : Bool)
    (maxConnections : ℤ) : Option (Graph × ℤ × List Addr) := do
  let node : Option Addr := none
  let label ← g.graphNodeLabelGet (← node)
  let (nodes, r) ← g.nodes.htDelete label true false
  let g ← g.withNodes nodes
  if r.ret ≠ 0 then
    some ({ g with errno := eGraphTableErr }, -1, [])
  else
    match r.prevData.join with
    | none => some ({ g with errno := eGraphNoNode }, -1, [])
    | some node => do
        let stored ← g.graphNodeConnectionsGet node.addr connections maxConnections
        let g ← g.graphNodeDestroy node.addr
        some (g, stored.length, stored)

end Graph
end LibHL
