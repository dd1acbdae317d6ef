import LibHL.LinkedList.Model

/-!
# Sorting a list

`list_sort` is a quicksort that keeps the pivot entry in place: values are exchanged
across it, and once one side is done, entries of the other side are relinked to the
neighbouring place of the pivot.  Loops of the source that are not counted run on fuel
here, and have no result when it runs out.
-/

namespace LibHL
namespace LinkedList

variable {V : Type}

/-- `swap_entry_node_val`. -/
def swapEntryNodeVal (es : Heap (ListEntry V)) (p1 p2 : Addr) :
    Option (Heap (ListEntry V)) := do
  let e1 ← es p1
  let e2 ← es p2
  let es ← es.modify p1 fun e => { e with value := e2.value }
  es.modify p2 fun e => { e with value := e1.value }

/-- `while (p && p != pivot && passes(p->value)) p = follow(p)`. -/
def scanTo (es : Heap (ListEntry V)) (follow : ListEntry V → Option Addr)
    (passes : Option V → Bool) (pivot : Addr) : ℕ → Option Addr → Option (Option Addr)
  | _, none => some none
  | 0, some _ => none
  | fuel + 1, some p =>
      if p = pivot then
        some (some p)
      else do
        let e ← es p
        if passes e.value then scanTo es follow passes pivot fuel (follow e) else some (some p)

/-- The variables of the partition loop. -/
structure Partition (V : Type) where
  list : LinkedList V
  head : Option Addr
  tail : Option Addr
  p1 : Option Addr
  p2 : Option Addr

/-- The case `p1 == pivot`: unlink the entry at `p2` and link it right before the pivot. -/
def moveBeforePivot (s : Partition V) (pivot p2 : Addr) : Option (Partition V) := do
  let e2 ← s.list.entries p2
  let es ← setNext s.list.entries e2.prev e2.next
  let es ← setPrev es e2.next e2.prev
  let e ← es pivot
  let es ← setNext es e.prev (some p2)
  -- `pivot->list` is read here, so it must not be null
  guard e.list
  let listHead := if e.prev = none ∧ s.list.head = some pivot then some p2 else s.list.head
  let listTail := if s.list.tail = some p2 then e2.prev else s.list.tail
  let es ← es.modify p2 fun f => { f with prev := e.prev }
  let es ← es.modify pivot fun f => { f with prev := some p2 }
  let es ← setNext es e.prev (some p2)
  let es ← es.modify p2 fun f => { f with next := some pivot }
  some {
    list := { s.list with
      entries := es
      head := listHead
      tail := listTail }
    head := if s.head = some pivot then some p2 else s.head
    tail := if s.tail = some p2 then e2.prev else s.tail
    p1 := s.p1
    p2 := e2.prev }

/-- The case `p2 == pivot`: unlink the entry at `p1` and link it right behind the pivot. -/
def moveBehindPivot (s : Partition V) (pivot p1 : Addr) : Option (Partition V) := do
  let e1 ← s.list.entries p1
  let es ← setNext s.list.entries e1.prev e1.next
  let es ← setPrev es e1.next e1.prev
  let e ← es pivot
  let es ← setPrev es e.next (some p1)
  guard e.list
  let listTail := if e.next = none ∧ s.list.tail = some pivot then some p1 else s.list.tail
  let listHead := if s.list.head = some p1 then e1.next else s.list.head
  let es ← es.modify p1 fun f => { f with next := e.next }
  let es ← es.modify pivot fun f => { f with next := some p1 }
  let es ← setPrev es e.next (some p1)
  let es ← es.modify p1 fun f => { f with prev := some pivot }
  some {
    list := { s.list with
      entries := es
      head := listHead
      tail := listTail }
    head := if s.head = some p1 then e1.next else s.head
    tail := if s.tail = some pivot then some p1 else s.tail
    p1 := e1.next
    p2 := s.p2 }

/-- The last case: exchange the values at `p1` and `p2`, and go on. -/
def swapAcrossPivot (s : Partition V) (p1 p2 : Addr) : Option (Partition V) := do
  let es ← swapEntryNodeVal s.list.entries p1 p2
  let e1 ← es p1
  let e2 ← es p2
  some { s with
    list := { s.list with entries := es }
    p1 := e1.next
    p2 := e2.prev }

/-- The first loop of `list_quick_sort`. -/
def partitionLoop (comparator : Option V → Option V → ℤ) (pvalue : Option V) (pivot : Addr) :
    ℕ → Partition V → Option (Partition V)
  | 0, _ => none
  | fuel + 1, s => do
      let p1 ← scanTo s.list.entries ListEntry.next (fun v => 0 < comparator v pvalue) pivot
        (fuel + 1) s.p1
      let p2 ← scanTo s.list.entries ListEntry.prev (fun v => comparator v pvalue < 0) pivot
        (fuel + 1) s.p2
      let s := { s with
        p1 := p1
        p2 := p2 }
      match p1, p2 with
      | some a, some b =>
          if a = b then
            some s
          else if a = pivot then do
            partitionLoop comparator pvalue pivot fuel (← moveBeforePivot s pivot b)
          else if b = pivot then do
            partitionLoop comparator pvalue pivot fuel (← moveBehindPivot s pivot a)
          else do
            partitionLoop comparator pvalue pivot fuel (← swapAcrossPivot s a b)
      | _, _ => some s

/-- `while (p != pivot) { p = p->next; l1++; }`: the final value of `l1`. -/
def countTo (es : Heap (ListEntry V)) (pivot : Addr) : ℕ → Option Addr → Option ℕ
  | 0, _ => none
  | fuel + 1, p => do
      let a ← p
      if a = pivot then
        some 0
      else do
        let e ← es a
        let n ← countTo es pivot fuel e.next
        some (n + 1)

/-- `for (i = 0; p && follow(p) && i < n; ++i) p = follow(p)`. -/
def goAlong (es : Heap (ListEntry V)) (follow : ListEntry V → Option Addr) :
    ℕ → Option Addr → Option (Option Addr)
  | _, none => some none
  | 0, some a => do
      let _ ← es a
      some (some a)
  | n + 1, some a => do
      let e ← es a
      match follow e with
      | none => some (some a)
      | some b => goAlong es follow n (some b)

/-- `list_quick_sort`. -/
def listQuickSort (comparator : Option V → Option V → ℤ) :
    ℕ → LinkedList V → Option Addr → Option Addr → Option Addr → ℤ → Option (LinkedList V)
  | 0, _, _, _, _, _ => none
  | fuel + 1, l, head, tail, pivot, length =>
      match head, tail, pivot with
      | some h, some t, some p =>
          if length < 2 then
            some l
          else if length = 2 then do
            let eh ← l.entries h
            let et ← l.entries t
            if comparator eh.value et.value < 0 then do
              let es ← swapEntryNodeVal l.entries h t
              some { l with entries := es }
            else
              some l
          else do
            let e ← l.entries p
            let s ← partitionLoop comparator e.value p fuel
              { list := l, head := head, tail := tail, p1 := head, p2 := tail }
            let es := s.list.entries
            let l1 : ℤ ← (countTo es p fuel s.head).map Nat.cast
            let l2 := length - (l1 + 1)
            let pv1 ← goAlong es ListEntry.next (l1.tdiv 2).toNat s.head
            let pv2 ← goAlong es ListEntry.prev (l2.tdiv 2).toNat s.tail
            let e ← es p
            let l ← (if 1 < l1 ∧ e.prev ≠ none ∧ s.head ≠ e.prev then
                listQuickSort comparator fuel s.list s.head e.prev pv1 l1
              else
                some s.list)
            let e ← l.entries p
            if 1 < l2 ∧ e.next ≠ none ∧ s.tail ≠ e.next then
              listQuickSort comparator fuel l e.next s.tail pv2 l2
            else
              some l
      | _, _, _ => some l

/-- `list_sort`; the entries that were ever allocated bound its loops. -/
def listSort (comparator : Option V → Option V → ℤ) (l : LinkedList V) :
    Option (LinkedList V) := do
  -- `list->length / 2 - 1` wraps around on a list of at most one entry
  let (l, pivot) ← l.pickEntry (if l.length / 2 = 0 then 2 ^ 64 - 1 else l.length / 2 - 1)
  let l ← listQuickSort comparator (l.entries.brk + 1) l l.head l.tail pivot (cInt l.length)
  some { l with
    cur := none
    pos := 0 }

end LinkedList
end LibHL
