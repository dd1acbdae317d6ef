import LibHL.RefCnt.Operations

/-!
# Runs of the reference counter in a single thread

What the user of a reference counter does, and the references it holds.  Pointers are
numbered by the call of `new_node` that made their node, so that the two callbacks show
for which node they are called even when several nodes carry one pointer, or when the
memory of a node is used again.
-/

namespace LibHL
namespace RefCnt

variable {A V : Type} [DecidableEq A]

/-- A call of `free_node_ptr_cb`: its pointer, and whether `terminate_node_cb` has been
called for the node. -/
structure FreeCall (V : Type) where
  ptr : ℕ × V
  terminated : Bool
deriving DecidableEq, Repr

/-- A reference counter whose user records the calls of `free_node_ptr_cb`. -/
abbrev Counted (A V : Type) := RefCnt A (ℕ × V) (List (FreeCall V))

/-- The callback `free_node_ptr_cb`. -/
def freeNodePtr (ptr : ℕ × V) (rc : Counted A V) : Option (Counted A V) :=
  some { rc with ext := rc.ext ++ [⟨ptr, rc.terminated.any fun p => p.1 == ptr.1⟩] }

/-- A reference counter, the references its user holds, and the number of nodes made. -/
structure Session (A V : Type) where
  rc : Counted A V
  held : List Addr
  made : ℕ

/-- The calls of the user. -/
inductive Call (A V : Type) where
  | newNode (ptr : V)
  | retainRef (node : Addr)
  | derefLink (a : A)
  | releaseRef (node : Addr)
  | storeRef (a : A) (ref : Option Addr)

namespace Session

/-- A new reference counter over cells that hold null. -/
def start (gcThreshold : UInt32) (links : A → Option Ref) : Session A V where
  rc := refcntCreate gcThreshold.toNat links []
  held := []
  made := 0

/-- A number of rounds that is enough for the loops of the next call. -/
def rounds (s : Session A V) : ℕ := s.rc.freeList.length + 2

/-- One call.  A reference that it returns is held from then on. -/
def step (s : Session A V) : Call A V → Option (Session A V × Option Addr)
  | .newNode ptr => do
      let r ← (newNode (s.made, ptr)).run s.rc
      some (⟨r.1, r.2 :: s.held, s.made + 1⟩, some r.2)
  | .retainRef node => do
      let r ← (retainRef node).run s.rc
      some ({ s with rc := r.1, held := r.2.toList ++ s.held }, r.2)
  | .derefLink a => do
      let r ← (derefLink a).run s.rc
      some ({ s with rc := r.1, held := r.2.toList ++ s.held }, r.2)
  | .releaseRef node => do
      let r ← (releaseRef s.rounds freeNodePtr node).run s.rc
      some ({ s with rc := r.1, held := s.held.erase node }, none)
  | .storeRef a ref => do
      let r ← (storeRef s.rounds freeNodePtr a ref).run s.rc
      some ({ s with rc := r.1 }, none)

/-- `refcnt_destroy` at the end of a session. -/
def destroy (s : Session A V) : Option (Counted A V) :=
  ((refcntDestroy s.rounds freeNodePtr).run s.rc).map Prod.fst

/-- The node that a cell refers to. -/
def target (s : Session A V) (a : A) : Option Addr := (s.rc.links a).bind Ref.node

/-- Pointers are to nodes and cells that exist, and only held references are released. -/
def Proper (s : Session A V) : Call A V → Prop
  | .newNode _ => True
  | .retainRef node => (s.rc.nodes node).isSome
  | .derefLink a => (s.rc.links a).isSome
  | .releaseRef node => node ∈ s.held
  | .storeRef a ref => (s.rc.links a).isSome ∧ ∀ node ∈ ref, (s.rc.nodes node).isSome

/-- `get_node_refcount`, and zero where there is no node. -/
def refcount (rc : Counted A V) (node : Addr) : ℕ :=
  match rc.nodes node with
  | some nd => nd.count.toNat
  | none => 0

/-- The count of the node is not the largest one. -/
def CanTake (s : Session A V) (node : Addr) : Prop := refcount s.rc node + 1 < 2 ^ 32

/-- If the count of the node is one, there is room for it on the free list. -/
def CanGive (s : Session A V) (node : Addr) : Prop :=
  refcount s.rc node = 1 →
    s.rc.gcThreshold ≤ 0x55555555 ∨ s.rc.freeList.length < freeListSize s.rc.gcThreshold

/-- No count passes its largest value, no node is dropped because the free list is full,
and no cell is made to refer to a node without references. -/
def Keeps (s : Session A V) : Call A V → Prop
  | .newNode _ => True
  | .retainRef node => CanTake s node
  | .derefLink a => ∀ node ∈ s.target a, CanTake s node
  | .releaseRef node => CanGive s node
  | .storeRef a ref =>
      (∀ node ∈ ref, 0 < refcount s.rc node ∧ CanTake s node) ∧
        ∀ old ∈ s.target a, ref ≠ some old → CanGive s old

instance (s : Session A V) (node : Addr) : Decidable (CanTake s node) :=
  inferInstanceAs (Decidable (_ < _))

instance (s : Session A V) (node : Addr) : Decidable (CanGive s node) :=
  inferInstanceAs (Decidable (_ → _))

instance (s : Session A V) : ∀ c : Call A V, Decidable (Proper s c)
  | .newNode _ => inferInstanceAs (Decidable True)
  | .retainRef _ => inferInstanceAs (Decidable (_ = true))
  | .derefLink _ => inferInstanceAs (Decidable (_ = true))
  | .releaseRef _ => inferInstanceAs (Decidable (_ ∈ _))
  | .storeRef _ _ => inferInstanceAs (Decidable (_ = true ∧ ∀ node ∈ _, _ = true))

instance (s : Session A V) : ∀ c : Call A V, Decidable (Keeps s c)
  | .newNode _ => inferInstanceAs (Decidable True)
  | .retainRef _ => inferInstanceAs (Decidable (CanTake s _))
  | .derefLink a => inferInstanceAs (Decidable (∀ node ∈ s.target a, CanTake s node))
  | .releaseRef _ => inferInstanceAs (Decidable (CanGive s _))
  | .storeRef a ref => inferInstanceAs (Decidable
      ((∀ node ∈ ref, 0 < refcount s.rc node ∧ CanTake s node) ∧
        ∀ old ∈ s.target a, ref ≠ some old → CanGive s old))

end Session
end RefCnt
end LibHL
