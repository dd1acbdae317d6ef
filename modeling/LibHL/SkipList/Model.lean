import LibHL.Support.Heap
import LibHL.Support.TailQueue
import Mathlib.Data.Int.Notation
import Mathlib.Data.Nat.Notation

/-!
# The skip list of `skiplist.c`

Every item has one wrapper for each layer, and the layers are tail queues of
wrappers.  A wrapper is named by its item and its layer, so a pointer into the
queue of another layer can be told apart.  The values of `random()` that an
insertion draws are an argument, indexed by the layer they are drawn for.
Allocations succeed, and the callback that releases values is left out.
-/

namespace LibHL

/-- The wrapper of an item for a layer. -/
abbrev SklItemWrapper := Addr × ℕ

/-- `skl_item_t` without its wrappers. -/
structure SklItem (K V : Type) where
  key : K
  value : V
  layerCheck : ℕ → Bool

/-- `skiplist_t`. -/
structure SkipList (K V : Type) where
  items : Heap (SklItem K V)
  layers : Tailqs ℕ SklItemWrapper
  numLayers : ℕ
  probability : ℤ
  count : ℕ

namespace SkipList

variable {K V : Type} (cmp : K → K → ℤ)

/-- `skiplist_create`. -/
def skiplistCreate (numLayers : ℕ) (probability : ℤ) : SkipList K V where
  items := Heap.empty
  layers :=
    { first := fun _ => none
      last := fun i => if i < numLayers then some (.first i) else none
      entry := fun _ => none }
  numLayers := numLayers
  probability := probability
  count := 0

/-! ## Searching -/

/-- The wrapper on layer `i` that the search looks at first. -/
def startOf (layers : Tailqs ℕ SklItemWrapper) (prevItem : Option SklItemWrapper) (i : ℕ) :
    Option (Option SklItemWrapper) :=
  match prevItem with
  | some w => (layers.entry (w.1, i)).map TailqEntry.next
  | none => some (layers.first i)

/-- The inner loop of `skiplist_search_internal`: move on while the keys are not
greater.  It cannot visit more wrappers than there are. -/
def advance (items : Heap (SklItem K V)) (layers : Tailqs ℕ SklItemWrapper) (key : K) :
    ℕ → Option SklItemWrapper → Option SklItemWrapper → Option (Option SklItemWrapper)
  | 0, _, _ => none
  | _ + 1, prevItem, none => some prevItem
  | fuel + 1, prevItem, some w => do
      let e ← layers.entry w
      let item ← items w.1
      if 0 < cmp item.key key then
        some prevItem
      else
        advance items layers key fuel (some w) e.next

/-- The outer loop of `skiplist_search_internal` over the layers below `n`. -/
def searchLayers (items : Heap (SklItem K V)) (layers : Tailqs ℕ SklItemWrapper) (key : K)
    (fuel : ℕ) : ℕ → Option SklItemWrapper → (ℕ → Option SklItemWrapper) →
      Option (Option SklItemWrapper × (ℕ → Option SklItemWrapper))
  | 0, prevItem, path => some (prevItem, path)
  | i + 1, prevItem, path => do
      let start ← startOf layers prevItem i
      let prevItem ← advance cmp items layers key fuel prevItem start
      searchLayers items layers key fuel i prevItem (Function.update path i prevItem)

/-- `skiplist_search_internal`: the last wrapper passed, and the path. -/
def skiplistSearchInternal (skl : SkipList K V) (key : K) :
    Option (Option SklItemWrapper × (ℕ → Option SklItemWrapper)) :=
  searchLayers cmp skl.items skl.layers key (skl.items.brk * skl.numLayers + 1)
    skl.numLayers none fun _ => none

/-- The item that was passed last, if it has the key. -/
def itemWithKey (skl : SkipList K V) (key : K) (prevItem : Option SklItemWrapper) :
    Option (Option (Addr × SklItem K V)) :=
  match prevItem with
  | none => some none
  | some w => do
      let item ← skl.items w.1
      if cmp item.key key = 0 then some (some (w.1, item)) else some none

/-- `skiplist_search`. -/
def skiplistSearch (skl : SkipList K V) (key : K) : Option (Option V) := do
  let r ← skiplistSearchInternal cmp skl key
  let found ← itemWithKey cmp skl key r.1
  some (found.map fun i => i.2.value)

/-! ## Insertion -/

/-- Link a wrapper into layer `i`: after the given wrapper, else at the tail. -/
def linkWrapper (layers : Tailqs ℕ SklItemWrapper) (i : ℕ) (after : Option SklItemWrapper)
    (w : SklItemWrapper) : Option (Tailqs ℕ SklItemWrapper) :=
  match after with
  | some p => layers.insertAfter i p w
  | none => layers.insertTail i w

/-- The zeroed wrappers of a new item. -/
def allocWrappers (layers : Tailqs ℕ SklItemWrapper) (a : Addr) (numLayers : ℕ) :
    Tailqs ℕ SklItemWrapper :=
  { layers with
    entry := fun w =>
      if w.1 = a ∧ w.2 < numLayers then some { next := none, prev := none }
      else layers.entry w }

/-- Release the wrappers of an item. -/
def freeWrappers (layers : Tailqs ℕ SklItemWrapper) (a : Addr) : Tailqs ℕ SklItemWrapper :=
  { layers with entry := fun w => if w.1 = a then none else layers.entry w }

/-- The coin loop of `skiplist_insert` for `n` layers from layer `i` on.  Once the
coin is zero it is not thrown again. -/
def promote (probability : ℤ) (random : ℕ → ℕ) (path : ℕ → Option SklItemWrapper)
    (a : Addr) : ℕ → ℕ → Bool → Tailqs ℕ SklItemWrapper → (ℕ → Bool) →
      Option (Tailqs ℕ SklItemWrapper × (ℕ → Bool))
  | 0, _, _, layers, layerCheck => some (layers, layerCheck)
  | n + 1, i, coin, layers, layerCheck =>
      if coin = true ∧ probability < ((random i % 100 : ℕ) : ℤ) then do
        let layers ← linkWrapper layers i (path i) (a, i)
        promote probability random path a n (i + 1) true layers
          (Function.update layerCheck i true)
      else
        promote probability random path a n (i + 1) false layers layerCheck

/-- The part of `skiplist_insert` that creates an item. -/
def insertNew (skl : SkipList K V) (key : K) (value : V) (random : ℕ → ℕ)
    (prevItem : Option SklItemWrapper) (path : ℕ → Option SklItemWrapper) :
    Option (SkipList K V) := do
  let r := skl.items.alloc { key := key, value := value, layerCheck := fun _ => false }
  let layers := allocWrappers skl.layers r.2 skl.numLayers
  let layers ← linkWrapper layers 0 (prevItem.map fun w => (w.1, 0)) (r.2, 0)
  let promoted ← promote skl.probability random path r.2 (skl.numLayers - 1) 1 true layers
    (Function.update (fun _ => false) 0 true)
  let items ← r.1.modify r.2 fun item => { item with layerCheck := promoted.2 }
  some { skl with items := items, layers := promoted.1, count := skl.count + 1 }

/-- `skiplist_insert`. -/
def skiplistInsert (skl : SkipList K V) (key : K) (value : V) (random : ℕ → ℕ) :
    Option (SkipList K V × ℤ) := do
  let r ← skiplistSearchInternal cmp skl key
  match ← itemWithKey cmp skl key r.1 with
  | some i => do
      let items ← skl.items.modify i.1 fun item => { item with value := value }
      some ({ skl with items := items }, 1)
  | none => do
      let skl ← insertNew skl key value random r.1 r.2
      some (skl, 0)

/-! ## Removal -/

/-- The loop of `skiplist_remove_internal` over `n` layers from layer `i` on. -/
def unlinkLayers (layerCheck : ℕ → Bool) (a : Addr) :
    ℕ → ℕ → Tailqs ℕ SklItemWrapper → Option (Tailqs ℕ SklItemWrapper)
  | 0, _, layers => some layers
  | n + 1, i, layers =>
      if layerCheck i then do
        let layers ← layers.remove i (a, i)
        unlinkLayers layerCheck a n (i + 1) layers
      else
        unlinkLayers layerCheck a n (i + 1) layers

/-- `skiplist_remove_internal`. -/
def skiplistRemoveInternal (skl : SkipList K V) (a : Addr) (item : SklItem K V) :
    Option (SkipList K V) := do
  let layers ← unlinkLayers item.layerCheck a skl.numLayers 0 skl.layers
  let items ← skl.items.free a
  some { skl with items := items, layers := freeWrappers layers a }

/-- `skiplist_remove`: the return code and the value handed out. -/
def skiplistRemove (skl : SkipList K V) (key : K) :
    Option (SkipList K V × ℤ × Option V) := do
  let r ← skiplistSearchInternal cmp skl key
  match ← itemWithKey cmp skl key r.1 with
  | some i => do
      let skl ← skiplistRemoveInternal skl i.1 i.2
      some ({ skl with count := skl.count - 1 }, 0, some i.2.value)
  | none => some (skl, -1, none)

/-- `skiplist_count`. -/
def skiplistCount (skl : SkipList K V) : ℕ := skl.count

end SkipList
end LibHL
