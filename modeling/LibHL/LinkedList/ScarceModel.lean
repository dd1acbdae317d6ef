import LibHL.LinkedList.Model
import LibHL.Support.Allocations

/-!
# Inserting values when memory may run out

The insertions of `linklist.c` once more, with every entry as a request that may be refused.
Linking and unlinking allocate nothing, and are taken from the model where all is granted.
-/

namespace LibHL
namespace LinkedList
namespace Scarce

variable {V : Type}

/-- `create_entry`; null if there is no memory. -/
def createEntry (l : LinkedList V) : Allocating (LinkedList V × Option Addr) := do
  if ← request then return (l.createEntry.1, some l.createEntry.2)
  else return (l, none)

/-- The padding loop of `insert_entry`, from the value `i` of its counter on: whether it has
got to the position.  The counter is an `unsigned int`, and the loop has no result if it is
not over after `fuel` tests of it. -/
def padLoop (pos : ℕ) : ℕ → ℕ → LinkedList V → Allocating (LinkedList V × Bool)
  | 0, _, _ => (none : Option (LinkedList V × Bool))
  | fuel + 1, i, l => do
      if i < pos then
        match ← createEntry l with
        | (l, none) => return (l, false)
        | (l, some emptyEntry) => do
            let (l, ret) ← l.pushEntry (some emptyEntry)
            if ret ≠ 0 then
              let l ← l.destroyEntry emptyEntry
              return (l, false)
            else padLoop pos fuel (cUInt (i + 1)) l
      else return (l, true)

/-- `insert_entry`. -/
def insertEntry (fuel : ℕ) (l : LinkedList V) (entry : Option Addr) (pos : ℕ) :
    Allocating (LinkedList V × ℤ) := do
  if l.length < pos then
    match ← padLoop pos fuel (cUInt l.length) l with
    | (l, false) => return (l, -1)
    | (l, true) => do
        let (l, ret) ← l.pushEntry entry
        if ret = 0 then return (l, ret)
        else l.insertAfterPicked entry pos
  else l.insertEntry entry pos

/-- What the insertions do with a new entry: store the value and link the entry, or destroy
it if that fails. -/
def insertNew (fuel : ℕ) (l : LinkedList V) (newEntry : Addr) (val : Option V) (pos : ℕ) :
    Allocating (LinkedList V × ℤ) := do
  let l ← l.setEntryValue newEntry val
  let (l, res) ← insertEntry fuel l (some newEntry) pos
  if res ≠ 0 then
    let l ← l.destroyEntry newEntry
    return (l, res)
  else return (l, res)

/-- `list_insert_value`. -/
def listInsertValue (fuel : ℕ) (l : LinkedList V) (val : Option V) (pos : ℕ) :
    Allocating (LinkedList V × ℤ) := do
  match ← createEntry l with
  | (l, none) => return (l, -1)
  | (l, some newEntry) => insertNew fuel l newEntry val pos

/-- `list_insert_tagged_value`.  The result stays zero without a value, and without an
entry. -/
def listInsertTaggedValue (fuel : ℕ) (l : LinkedList V) (tval : Option V) (pos : ℕ) :
    Allocating (LinkedList V × ℤ) :=
  match tval with
  | none => return (l, 0)
  | some tval => do
      match ← createEntry l with
      | (l, none) => return (l, 0)
      | (l, some newEntry) => insertNew fuel l newEntry (some tval) pos

end Scarce
end LinkedList
end LibHL
