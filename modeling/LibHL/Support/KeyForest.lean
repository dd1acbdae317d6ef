import Mathlib.Data.List.Basic

/-!
# Forests of keys

A heap of trees, seen by its keys alone.  A tree is added to a forest by linking it with
the first ones as long as they have as many children.  A search chooses one tree and then
goes down, one child at a time; it never comes back to a branch that it left.
-/

namespace LibHL

/-- A tree with a key at every node. -/
inductive KeyTree (K : Type) where
  | node (key : K) (children : List (KeyTree K))

namespace KeyTree

variable {K : Type}

def key : KeyTree K → K
  | node key _ => key

def children : KeyTree K → List (KeyTree K)
  | node _ children => children

mutual

/-- The keys of a tree. -/
def keys : KeyTree K → List K
  | node key children => key :: allKeys children

/-- The keys of a list of trees. -/
def allKeys : List (KeyTree K) → List K
  | [] => []
  | t :: ts => keys t ++ allKeys ts

end

/-- The second tree becomes the last child of the first. -/
def adopt (t u : KeyTree K) : KeyTree K := node t.key (t.children ++ [u])

/-- Add a tree to a forest.  Of two trees that are linked, the one whose key `wins` adopts
the other. -/
def insert (wins : K → K → Prop) [DecidableRel wins] :
    KeyTree K → List (KeyTree K) → List (KeyTree K)
  | t, [] => [t]
  | t, u :: us =>
      if u.children.length = t.children.length then
        if wins t.key u.key then insert wins (t.adopt u) us else insert wins (u.adopt t) us
      else
        t :: u :: us

/-! ## Searches -/

section Search

variable (choose : List K → Option ℕ) (target : K → Prop)

/-- The choice of a tree loses nothing: if one of the trees holds a key that is searched
for, then so does the chosen one. -/
def ChoiceLosesNone (ts : List (KeyTree K)) (i : ℕ) : Prop :=
  (∃ k ∈ allKeys ts, target k) → ∃ k ∈ allKeys ts[i]?.toList, target k

mutual

/-- No choice on the way down from the root of a tree loses anything. -/
def PathLosesNone : KeyTree K → Prop
  | node _ ts =>
      match choose (ts.map key) with
      | none => True
      | some i => ChoiceLosesNone target ts i ∧ PathLosesNoneAt ts i

/-- No choice on the way down from the root of one of the trees loses anything. -/
def PathLosesNoneAt : List (KeyTree K) → ℕ → Prop
  | [], _ => True
  | t :: _, 0 => PathLosesNone t
  | _ :: ts, i + 1 => PathLosesNoneAt ts i

end

/-- No choice of a search loses anything, neither that of the tree nor those on the way
down from its root. -/
def SearchLosesNone (chooseTree : List K → Option ℕ) (ts : List (KeyTree K)) : Prop :=
  match chooseTree (ts.map key) with
  | none => True
  | some i => ChoiceLosesNone target ts i ∧ PathLosesNoneAt choose target ts i

variable [DecidablePred target]

instance decidableChoiceLosesNone (ts : List (KeyTree K)) (i : ℕ) :
    Decidable (ChoiceLosesNone target ts i) :=
  have : Decidable (∃ k ∈ allKeys ts, target k) := List.decidableBEx target _
  have : Decidable (∃ k ∈ allKeys ts[i]?.toList, target k) := List.decidableBEx target _
  inferInstanceAs (Decidable (_ → _))

mutual

instance decidablePathLosesNone : ∀ t : KeyTree K, Decidable (PathLosesNone choose target t)
  | node _ ts =>
      match h : choose (ts.map key) with
      | none => isTrue (by simp [PathLosesNone, h])
      | some i =>
          have := decidablePathLosesNoneAt ts i
          decidable_of_iff (ChoiceLosesNone target ts i ∧ PathLosesNoneAt choose target ts i)
            (by simp [PathLosesNone, h])

instance decidablePathLosesNoneAt : ∀ (ts : List (KeyTree K)) (i : ℕ),
    Decidable (PathLosesNoneAt choose target ts i)
  | [], _ => isTrue (by simp [PathLosesNoneAt])
  | t :: _, 0 =>
      have := decidablePathLosesNone t
      decidable_of_iff (PathLosesNone choose target t) (by simp [PathLosesNoneAt])
  | _ :: ts, i + 1 =>
      have := decidablePathLosesNoneAt ts i
      decidable_of_iff (PathLosesNoneAt choose target ts i) (by simp [PathLosesNoneAt])

end

instance decidableSearchLosesNone (chooseTree : List K → Option ℕ) (ts : List (KeyTree K)) :
    Decidable (SearchLosesNone choose target chooseTree ts) :=
  match h : chooseTree (ts.map key) with
  | none => isTrue (by simp [SearchLosesNone, h])
  | some i => decidable_of_iff
      (ChoiceLosesNone target ts i ∧ PathLosesNoneAt choose target ts i)
      (by simp [SearchLosesNone, h])

end Search

variable {wins : K → K → Prop} [DecidableRel wins] {choose : List K → Option ℕ}
  {target : K → Prop} {t u : KeyTree K} {ts : List (KeyTree K)}

theorem key_adopt (t u : KeyTree K) : (t.adopt u).key = t.key := rfl

theorem length_children_adopt (t u : KeyTree K) :
    (t.adopt u).children.length = t.children.length + 1 := by
  rw [adopt, children, List.length_append]
  rfl

/-- A forest without a first tree that has as many children gets a new first tree. -/
theorem insert_of_ne (h : ∀ u ∈ ts.head?, u.children.length ≠ t.children.length) :
    insert wins t ts = t :: ts := by
  cases ts with
  | nil => rw [insert]
  | cons u us => rw [insert, if_neg (h u rfl)]

theorem pathLosesNoneAt_iff {i : ℕ} (h : ts[i]? = some t) :
    PathLosesNoneAt choose target ts i ↔ PathLosesNone choose target t := by
  induction ts generalizing i with
  | nil => cases h
  | cons u ts ih =>
      cases i with
      | zero =>
          cases h
          rw [PathLosesNoneAt]
      | succ i =>
          rw [PathLosesNoneAt]
          exact ih h

end KeyTree
end LibHL
