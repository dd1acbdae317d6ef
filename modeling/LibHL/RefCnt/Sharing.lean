import LibHL.RefCnt.Model
import LibHL.Support.SharedCounting
import Mathlib.Algebra.BigOperators.Group.Finset.Piecewise
import Mathlib.Algebra.Order.BigOperators.Group.Finset
import Mathlib.Data.Fintype.Card
import Mathlib.Tactic.Abel

/-!
# Nodes shared by any number of threads

Each thread makes nodes, takes further references to nodes that it has a reference to, hands
references on to other threads, and gives them back; it never uses a node without holding a
reference.  The programs are followed step by step: what a thread is about to do says which
references it has on its way, which flags it has set, and which nodes it is collecting.
-/

namespace LibHL
namespace RefCnt
namespace Sharing

variable {ι : Type} [DecidableEq ι]

/-- The references that the threads hold, and the pointers given to `free_node_ptr_cb`. -/
structure Users (ι : Type) where
  hands : ι → List Addr
  freed : List (ι × ℕ)

/-- A reference counter whose nodes carry the thread that made them and a number. -/
abbrev SharedCnt (ι : Type) := RefCnt Empty (ι × ℕ) (Users ι)

/-- What a thread does with its references; `place` is the place of one in its hand. -/
inductive Use (ι : Type) where
  | create
  | retain (place : ℕ)
  | release (place : ℕ)
  | give (place : ℕ) (peer : ι)

/-! ## The programs -/

/-- The callback `free_node_ptr_cb`. -/
def logFree (ptr : ι × ℕ) (s : SharedCnt ι) : Option (SharedCnt ι) :=
  some { s with ext := { s.ext with freed := s.ext.freed ++ [ptr] } }

def setHand (s : SharedCnt ι) (i : ι) (hand : List Addr) : SharedCnt ι :=
  { s with ext := { s.ext with hands := Function.update s.ext.hands i hand } }

/-- Look at a reference in the hand. -/
def pick (i : ι) (place : ℕ) : Prog (SharedCnt ι) (Option Addr) :=
  .atomic fun s => some (s, (s.ext.hands i)[place]?)

/-- Take a reference out of the hand. -/
def drop (i : ι) (place : ℕ) : Prog (SharedCnt ι) (Option Addr) :=
  .atomic fun s =>
    some (setHand s i ((s.ext.hands i).eraseIdx place), (s.ext.hands i)[place]?)

/-- Put a reference into a hand. -/
def take (i : ι) (node : Addr) : Prog (SharedCnt ι) Unit :=
  .atomic fun s => some (setHand s i (node :: s.ext.hands i), ())

section Programs

variable (bound : ℕ) (i : ι)

/-- Put what `retain_ref` returns into the hand. -/
def takeRetained : Option Addr → Prog (SharedCnt ι) Unit
  | none => pure ()
  | some node => take i node

/-- One use of a reference, by a thread that has made `made` nodes. -/
def perform (made : ℕ) : Use ι → Prog (SharedCnt ι) Unit
  | .create => do
      let node ← newNode (i, made)
      take i node
  | .retain place => do
      match ← pick i place with
      | none => pure ()
      | some node => do
          let node ← retainRef node
          takeRetained i node
  | .release place => do
      match ← drop i place with
      | none => pure ()
      | some node => releaseRef bound logFree node
  | .give place peer => do
      match ← drop i place with
      | none => pure ()
      | some node => take peer node

/-- The number of nodes that are made. -/
def Use.creates : Use ι → ℕ
  | .create => 1
  | _ => 0

/-- All that a thread does. -/
def useAll : ℕ → List (Use ι) → Prog (SharedCnt ι) Unit
  | _, [] => pure ()
  | made, use :: uses => do
      perform bound i made use
      useAll (made + use.creates) uses

end Programs

/-- A new reference counter and the threads that use it. -/
def startUses (gcThreshold bound : ℕ) (uses : ι → List (Use ι)) : Threads ι (SharedCnt ι) where
  state := refcntCreate gcThreshold (fun a => a.elim) ⟨fun _ => [], []⟩
  progs := fun i => useAll bound i 0 (uses i)

/-! ## What a thread is about to do -/

inductive Phase (ι : Type) where
  | idle
  | hold (peer : ι) (node : Addr)
  | test (node : Addr)
  | read (node : Addr)
  | raise (node : Addr)
  | count (node : Addr)
  | lower (node : Addr)
  | flag (node : Addr)
  | look (node : Addr)
  | terminate (node : Addr)
  | clear (node : Addr)
  | due
  | loop (limit rounds : ℕ)
  | fetch (limit rounds : ℕ)
  | lookUp (node : Addr) (limit rounds : ℕ)
  | free (node : Addr) (ptr : ι × ℕ) (limit rounds : ℕ)
  | recycle (node : Addr) (limit rounds : ℕ)

namespace Phase

/-- The references that are in no hand. -/
def held : Phase ι → Multiset Addr
  | hold _ node | count node | lower node => {node}
  | _ => 0

/-- The nodes whose flag the thread has set and will clear, as far as it knows. -/
def owned : Phase ι → Multiset Addr
  | look node | clear node => {node}
  | _ => 0

/-- The nodes that the thread is about to terminate. -/
def doomed : Phase ι → Multiset Addr
  | terminate node => {node}
  | _ => 0

/-- The nodes that the thread has taken from the free list. -/
def full : Phase ι → Multiset Addr
  | lookUp node _ _ | free node _ _ _ => {node}
  | _ => 0

/-- The nodes whose pointers the thread has freed. -/
def empty : Phase ι → Multiset Addr
  | recycle node _ _ => {node}
  | _ => 0

/-- What the rest of a call is. -/
def prog (bound : ℕ) (i : ι) : Phase ι → Prog (SharedCnt ι) Unit
  | idle => pure ()
  | hold peer node => take peer node
  | test node => do
      let node ← derefNode node
      takeRetained i node
  | read node => do
      let node ← (do
        if (← readField node RefcntNode.count) = 0 then
          pure none
        else do
          updateCount node (· + 1)
          pure (some node))
      takeRetained i node
  | raise node => do
      updateCount node (· + 1)
      take i node
  | count node => releaseRef bound logFree node
  | lower node => do
      updateCount node (· - 1)
      if ← casUpdating node false true then
        releaseFlagged node
      gcIfDue bound logFree
  | flag node => do
      if ← casUpdating node false true then
        releaseFlagged node
      gcIfDue bound logFree
  | look node => do
      releaseFlagged node
      gcIfDue bound logFree
  | terminate node => do
      terminateNode node
      gcIfDue bound logFree
  | clear node => do
      let _ ← casUpdating node true false
      gcIfDue bound logFree
  | due => gcIfDue bound logFree
  | loop limit rounds => gcLoop logFree limit rounds
  | fetch limit rounds => do
      match ← readFreeList with
      | none => pure ()
      | some node => do
          let ptr ← readField node RefcntNode.ptr
          Prog.atomic fun s => (logFree ptr s).map fun s => (s, ())
          recycleNode node
          gcLoop logFree limit rounds
  | lookUp node limit rounds => do
      let ptr ← readField node RefcntNode.ptr
      Prog.atomic fun s => (logFree ptr s).map fun s => (s, ())
      recycleNode node
      gcLoop logFree limit rounds
  | free node ptr limit rounds => do
      Prog.atomic fun s => (logFree ptr s).map fun s => (s, ())
      recycleNode node
      gcLoop logFree limit rounds
  | recycle node limit rounds => do
      recycleNode node
      gcLoop logFree limit rounds

/-- What the thread knows: a node to which it takes a further reference is in its hand, and
a pointer that it is about to free is that of the node. -/
def Knows (s : SharedCnt ι) (i : ι) : Phase ι → Prop
  | test node | read node | raise node => node ∈ s.ext.hands i
  | free node ptr _ _ => ∃ nd, s.nodes node = some nd ∧ nd.ptr = ptr
  | _ => True

end Phase

/-- What a thread is about to do, the number of nodes it has made, and what follows. -/
structure Site (ι : Type) where
  phase : Phase ι
  made : ℕ
  rest : List (Use ι)

/-- The program of a thread. -/
def Site.prog (bound : ℕ) (i : ι) (site : Site ι) : Prog (SharedCnt ι) Unit := do
  site.phase.prog bound i
  useAll bound i site.made site.rest

end Sharing
end RefCnt
end LibHL
