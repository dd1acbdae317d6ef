import LibHL.AvlTree.Model
import LibHL.Support.TailQueue

/-!
# Walking the tree

`avlt_walk` keeps the nodes it still has to visit in a queue that runs through the nodes
themselves; `avlt_walk_sorted` is recursive, and a negative count stands for the request to
stop.  The callback has a state of its own and does not change the tree.  A count that does
not fit in an `int` gives no result, as a dangling pointer does.
-/

namespace LibHL
namespace AvlTree

variable {K V σ : Type}

/-! ## The code -/

/-- A call of the callback: what it is called with and its answer.  For the recursive walk
the record has, too, on which sides the invocations are that lead to the node, the innermost
first. -/
structure Call (K V : Type) where
  entry : K × Option V
  answer : ℤ
  turns : List Side

/-- A walk: the tree, the callback's own state, and a record of its calls. -/
structure Walk (K V σ : Type) where
  tree : Avlt K V
  user : σ
  calls : List (Call K V)

/-- Add to the count of a walk. -/
def addCount (cnt n : ℤ) : Option ℤ := if cnt + n < 2 ^ 31 then some (cnt + n) else none

/-- `TAILQ_INIT`.  The `list` fields of the nodes hold anything. -/
def tailqInit (nodes : Heap (AvltNode K V)) (links : Addr → TailqEntry Unit Addr) :
    Tailqs Unit Addr where
  first := fun _ => none
  last := fun _ => some (.first ())
  entry := fun a => (nodes a).map fun _ => links a

/-- Links as they are in nodes that were never in a queue. -/
def noLinks (_ : Addr) : TailqEntry Unit Addr := ⟨none, none⟩

/-- The queue after a removal: the links of a released node are gone with it. -/
def stillLinked (nodes : Heap (AvltNode K V)) (q : Tailqs Unit Addr) : Tailqs Unit Addr :=
  { q with entry := fun a => (nodes a).bind fun _ => q.entry a }

/-- `TAILQ_INSERT_TAIL` of a child, if there is one. -/
def enqueue (q : Tailqs Unit Addr) : Option Addr → Option (Tailqs Unit Addr)
  | none => some q
  | some a => q.insertTail () a

section Code

variable (cmp : K → K → ℤ) (cb : σ → K × Option V → σ × ℤ)

/-- The call of the callback, with its answer. -/
def callback (s : Walk K V σ) (turns : List Side) (node : Addr) : Option (Walk K V σ × ℤ) := do
  let n ← s.tree.nodes node
  let c := cb s.user n.data.entry
  some ({ s with
    user := c.1
    calls := s.calls ++ [⟨n.data.entry, c.2, turns⟩] }, c.2)

/-- `avlt_remove` of the key of the visited node.  What it returns is ignored. -/
def removeVisited (s : Walk K V σ) (node : Addr) : Option (Walk K V σ) := do
  let n ← s.tree.nodes node
  let r ← avltRemove cmp s.tree n.data.key true
  some { s with tree := r.1 }

/-- The end of a round of `avlt_walk`: the node counts, and its children are queued. -/
def queueChildren (s : Walk K V σ) (q : Tailqs Unit Addr) (node : Addr) (cnt : ℤ) :
    Option (Tailqs Unit Addr × ℤ) := do
  let cnt ← addCount cnt 1
  let n ← s.tree.nodes node
  let q ← enqueue q n.left
  let q ← enqueue q n.right
  some (q, cnt)

/-- The loop of `avlt_walk`, with at most `fuel` rounds. -/
def walkLoop : ℕ → Walk K V σ → Tailqs Unit Addr → ℤ → Option (Walk K V σ × ℤ)
  | 0, _, _, _ => none
  | fuel + 1, s, q, cnt =>
      match q.first () with
      | none => some (s, cnt)
      | some cur => do
          let q ← q.remove () cur
          let (s, ret) ← callback cb s [] cur
          if ret = 0 then some (s, cnt)
          else if ret = -1 then do
            let s ← removeVisited cmp s cur
            let (q, cnt) ← queueChildren s (stillLinked s.tree.nodes q) cur cnt
            walkLoop fuel s q cnt
          else if ret = -2 then do
            let s ← removeVisited cmp s cur
            some (s, cnt)
          else do
            let (q, cnt) ← queueChildren s q cur cnt
            walkLoop fuel s q cnt

/-- `avlt_walk`. -/
def avltWalk (links : Addr → TailqEntry Unit Addr) (fuel : ℕ) (tree : Avlt K V) (user : σ) :
    Option (Walk K V σ × ℤ) :=
  match tree.root with
  | none => some (⟨tree, user, []⟩, 0)
  | some cur => do
      let q ← (tailqInit tree.nodes links).insertTail () cur
      walkLoop cmp cb fuel ⟨tree, user, []⟩ q 0

/-- The walk of a child, if there is one.  A child that asked to stop ends the walk of the
node; else its count is added. -/
def walkChild (walk : Walk K V σ → Addr → Option (Walk K V σ × ℤ)) (s : Walk K V σ)
    (child : Option Addr) (cnt : ℤ) (next : Walk K V σ → ℤ → Option (Walk K V σ × ℤ)) :
    Option (Walk K V σ × ℤ) :=
  match child with
  | none => next s cnt
  | some a => do
      let r ← walk s a
      if r.2 = -1 then do
        let cnt ← addCount cnt 1
        some (r.1, cnt)
      else do
        let cnt ← addCount cnt r.2
        next r.1 cnt

/-- The right child is walked last. -/
def walkRight (walk : Walk K V σ → Addr → Option (Walk K V σ × ℤ)) (node : Addr)
    (s : Walk K V σ) (cnt : ℤ) : Option (Walk K V σ × ℤ) := do
  let n ← s.tree.nodes node
  walkChild walk s n.right cnt fun s cnt => some (s, cnt)

/-- The callback, and what its answer asks for. -/
def visit (walk : Walk K V σ → Addr → Option (Walk K V σ × ℤ)) (turns : List Side) (node : Addr)
    (s : Walk K V σ) (cnt : ℤ) : Option (Walk K V σ × ℤ) := do
  let (s, ret) ← callback cb s turns node
  if ret = 0 then some (s, -1)
  else if ret = -1 then do
    let s ← removeVisited cmp s node
    walkRight walk node s cnt
  else if ret = -2 then do
    let s ← removeVisited cmp s node
    some (s, -1)
  else walkRight walk node s cnt

/-- `avt_walk_sorted_internal`, at most `fuel` invocations deep. -/
def avtWalkSortedInternal : ℕ → List Side → Walk K V σ → Addr → Option (Walk K V σ × ℤ)
  | 0, _, _, _ => none
  | fuel + 1, turns, s, node => do
      let n ← s.tree.nodes node
      walkChild (avtWalkSortedInternal fuel (.left :: turns)) s n.left 1
        (visit cmp cb (avtWalkSortedInternal fuel (.right :: turns)) turns node)

/-- `avlt_walk_sorted`. -/
def avltWalkSorted (fuel : ℕ) (tree : Avlt K V) (user : σ) : Option (Walk K V σ × ℤ) :=
  match tree.root with
  | none => some (⟨tree, user, []⟩, 0)
  | some root => avtWalkSortedInternal cmp cb fuel [] ⟨tree, user, []⟩ root

end Code

end AvlTree
end LibHL
