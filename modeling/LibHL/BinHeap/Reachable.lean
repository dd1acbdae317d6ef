import LibHL.BinHeap.Walk

/-!
# Runs of all operations

The operations that search, change a key or walk keep a heap consistent under conditions of
their own.  In a run that meets them every heap is consistent, and for each of these
operations the condition says when it does what it should.
-/

namespace LibHL
namespace BinHeap

variable {K V : Type}

/-- Callbacks whose comparison is a total preorder. -/
structure OrderedCallbacks (K : Type) extends Comparator K where
  incr : K → ℤ → K
  decr : K → ℤ → K

/-- The callbacks of a heap. -/
def OrderedCallbacks.callbacks (cbs : OrderedCallbacks K) : BinheapCallbacks K where
  cmp := cbs.cmp
  incr := cbs.incr
  decr := cbs.decr

/-- The callbacks for integer keys. -/
def intKeys : OrderedCallbacks ℤ where
  cmp := intCallbacks.cmp
  incr := intCallbacks.incr
  decr := intCallbacks.decr
  dual := by
    intro a b
    simp only [intCallbacks]
    omega
  trans := by
    intro a b d
    simp only [intCallbacks]
    omega

/-- A callback that answers 1 or -1 for each item. -/
structure SteadyCallback (K V : Type) where
  cb : WalkCallback K V
  answers : ∀ calls k v, cb calls k v = 1 ∨ cb calls k v = -1

/-- The operations on a heap. -/
inductive HeapOp (K V : Type) where
  | change (op : BinheapOp K V)
  | increaseMaximum (incr : CInt)
  | decreaseMaximum (decr : CInt)
  | increaseMinimum (incr : CInt)
  | decreaseMinimum (decr : CInt)
  | walk (cb : SteadyCallback K V)

/-- Fuel that is enough for a walk. -/
def walkFuel (bh : BinHeap K V) : ℕ := 2 * bh.nodes.brk + 1

/-- Perform an operation; the output is the return value, and the value handed out. -/
def stepHeap (cbs : OrderedCallbacks K) (bh : BinHeap K V) :
    HeapOp K V → Option (BinHeap K V × ℤ × Option V)
  | .change op => stepOp cbs.cmp bh op
  | .increaseMaximum n => (binheapIncreaseMaximum cbs.callbacks bh n).map (·, 0, none)
  | .decreaseMaximum n => (binheapDecreaseMaximum cbs.callbacks bh n).map (·, 0, none)
  | .increaseMinimum n => (binheapIncreaseMinimum cbs.callbacks bh n).map (·, 0, none)
  | .decreaseMinimum n => (binheapDecreaseMinimum cbs.callbacks bh n).map (·, 0, none)
  | .walk cb => (binheapWalk cbs.cmp cb.cb (walkFuel bh) bh).map fun s => (s.bh, s.count, none)

/-- The amount of a change can be negated and the head keeps up with the key, and a walk is
tidy. -/
def OpFits (cbs : OrderedCallbacks K) (bh : BinHeap K V) : HeapOp K V → Prop
  | .change _ => True
  | .increaseMaximum n => AmountFits bh n ∧ ChangeFits cbs.callbacks bh .max n.1
  | .decreaseMaximum n => AmountFits bh n ∧ ChangeFits cbs.callbacks bh .max (-n.1)
  | .increaseMinimum n => AmountFits bh n ∧ ChangeFits cbs.callbacks bh .min n.1
  | .decreaseMinimum n => AmountFits bh n ∧ ChangeFits cbs.callbacks bh .min (-n.1)
  | .walk cb => Tidy (removedBy cb.cb bh) bh

instance decidableOpFits (cbs : OrderedCallbacks K) (bh : BinHeap K V) (op : HeapOp K V) :
    Decidable (OpFits cbs bh op) :=
  match op with
  | .change _ => isTrue trivial
  | .increaseMaximum n =>
      inferInstanceAs (Decidable (AmountFits bh n ∧ ChangeFits cbs.callbacks bh .max n.1))
  | .decreaseMaximum n =>
      inferInstanceAs (Decidable (AmountFits bh n ∧ ChangeFits cbs.callbacks bh .max (-n.1)))
  | .increaseMinimum n =>
      inferInstanceAs (Decidable (AmountFits bh n ∧ ChangeFits cbs.callbacks bh .min n.1))
  | .decreaseMinimum n =>
      inferInstanceAs (Decidable (AmountFits bh n ∧ ChangeFits cbs.callbacks bh .min (-n.1)))
  | .walk cb => decidableTidy (removedBy cb.cb bh) bh

variable {cbs : OrderedCallbacks K} {bh : BinHeap K V} {mode : BinheapMode}

/-- An operation that fits keeps a heap consistent. -/
theorem stepHeap_keeps (h : Consistent cbs.toComparator bh) (op : HeapOp K V)
    (hfits : OpFits cbs bh op) :
    ∃ bh' o, stepHeap cbs bh op = some (bh', o) ∧ Consistent cbs.toComparator bh' ∧
      bh'.mode = bh.mode := by
  have hcmp : cbs.callbacks.cmp = cbs.toComparator.cmp := rfl
  have hchange : ∀ {side : BinheapMode} {n : CInt} {amount : Option CInt} {m : ℤ},
      (amount = some n ∧ m = n.1 ∨ amount = negInt n ∧ m = -n.1) →
      AmountFits bh n ∧ ChangeFits cbs.callbacks bh side m →
      ∃ (bh' : BinHeap K V) (o : ℤ × Option V),
        (changeExtremum cbs.callbacks bh side amount).map (·, (0 : ℤ), (none : Option V)) =
          some (bh', o) ∧ Consistent cbs.toComparator bh' ∧ bh'.mode = bh.mode := by
    intro side n amount m hamount hboth
    obtain ⟨bh', hrun, h', hmode⟩ := (h.changeExtremum_right_iff hcmp side hamount).2 hboth
    exact ⟨bh', (0, none), by rw [hrun]; rfl, h', hmode⟩
  cases op with
  | change op =>
      obtain ⟨bh', o, hrun, -, h', hmode⟩ := stepOp_refines h op
      exact ⟨bh', o, hrun, h', hmode⟩
  | increaseMaximum n => exact hchange (Or.inl ⟨rfl, rfl⟩) hfits
  | decreaseMaximum n => exact hchange (Or.inr ⟨rfl, rfl⟩) hfits
  | increaseMinimum n => exact hchange (Or.inl ⟨rfl, rfl⟩) hfits
  | decreaseMinimum n => exact hchange (Or.inr ⟨rfl, rfl⟩) hfits
  | walk cb =>
      obtain ⟨s, hrun, hs⟩ := h.binheapWalk_spec cb.answers hfits (Nat.lt_succ_self _)
      have hrun' : binheapWalk cbs.cmp cb.cb (walkFuel bh) bh = some s := hrun
      exact ⟨s.bh, (s.count, none), by rw [stepHeap, hrun']; rfl, hs.consistent, hs.mode⟩

/-- Every run whose steps fit succeeds and leaves a consistent heap. -/
theorem reached_consistent (cbs : OrderedCallbacks K) (mode : BinheapMode) (ops : List (HeapOp K V))
    (hfits : StepsMeet (stepHeap cbs) (OpFits cbs) (binheapCreate mode) ops) :
    ∃ bh outs, runSteps (stepHeap cbs) (binheapCreate mode) ops = some (bh, outs) ∧
      Consistent cbs.toComparator bh ∧ bh.mode = mode := by
  have hstep : ∀ (bh : BinHeap K V) (op : HeapOp K V),
      (Consistent cbs.toComparator bh ∧ bh.mode = mode) → OpFits cbs bh op →
      ∃ bh' o, stepHeap cbs bh op = some (bh', o) ∧
        (Consistent cbs.toComparator bh' ∧ bh'.mode = mode) := by
    rintro bh op ⟨h, hmode⟩ hop
    obtain ⟨bh', o, hrun, h', hmode'⟩ := stepHeap_keeps h op hop
    exact ⟨bh', o, hrun, h', hmode'.trans hmode⟩
  exact runSteps_keeps hstep ops (binheapCreate mode) ⟨Consistent.create _ mode, rfl⟩ hfits

/-! ## Deletion by key -/

/-- In every heap that a run reaches, and for every key, the deletion by key removes an item
with the key if there is one, exactly if the search for it loses nothing. -/
theorem delete_correct_iff (cbs : OrderedCallbacks K) (mode : BinheapMode)
    (ops : List (HeapOp K V))
    (hfits : StepsMeet (stepHeap cbs) (OpFits cbs) (binheapCreate mode) ops) :
    ∃ bh outs, runSteps (stepHeap cbs) (binheapCreate mode) ops = some (bh, outs) ∧
      bh.mode = mode ∧
      ∀ key, KeyLosesNone cbs.cmp bh key ↔ DeletesKey cbs.toComparator bh key := by
  obtain ⟨bh, outs, hrun, h, hmode⟩ := reached_consistent cbs mode ops hfits
  exact ⟨bh, outs, hrun, hmode, h.deletesKey_iff⟩

/-- Insertions, a walk that removes the greatest item, and a key that keeps up. -/
def mixedRun : List (HeapOp ℤ ℕ) :=
  [.change (.insert 4 10), .change (.insert 7 11), .increaseMaximum ⟨3, by decide⟩,
    .walk ⟨fun _ k _ => if k = 10 then -1 else 1, fun _ k _ => by
      by_cases hk : k = 10
      · exact Or.inr (if_pos hk)
      · exact Or.inl (if_neg hk)⟩,
    .change (.insert 5 12), .change (.delete 4)]

theorem delete_correct_iff_mixedRun :
    ∃ bh outs, runSteps (stepHeap intKeys) (binheapCreate .max) mixedRun = some (bh, outs) ∧
      bh.mode = .max ∧
      ∀ key, KeyLosesNone intKeys.cmp bh key ↔ DeletesKey intKeys.toComparator bh key :=
  delete_correct_iff intKeys .max mixedRun (by decide)

/-- Of the roots `3` and `5`, which both have precedence over the key `0`, the search takes
the one that is closer to it, and does not see the `0` below the other one. -/
theorem key_below_other_root :
    ¬ ∃ bh outs, runSteps (stepHeap intKeys) (binheapCreate .max)
        ([.change (.insert 5 ()), .change (.insert 0 ()), .change (.insert 3 ())] :
          List (HeapOp ℤ Unit)) = some (bh, outs) ∧
      DeletesKey intKeys.toComparator bh 0 := by
  rintro ⟨bh, outs, hrun, bh', o, hdelete, hremoves, -⟩
  have hanswer : (runSteps (stepHeap intKeys) (binheapCreate .max)
      ([.change (.insert 5 ()), .change (.insert 0 ()), .change (.insert 3 ())] :
        List (HeapOp ℤ Unit))).map (fun r => ((binheapDelete intKeys.cmp r.1 0).map Prod.snd,
        decide (((0 : ℤ), ()) ∈ contents r.1))) = some (some (-1, none), true) := by
    decide
  rw [hrun, Option.map_some, hdelete] at hanswer
  simp only [Option.map_some, Option.some.injEq, Prod.mk.injEq, decide_eq_true_eq] at hanswer
  obtain ⟨ho, hmem⟩ := hanswer
  obtain ⟨i, -, hi, -⟩ := hremoves ⟨_, hmem, rfl⟩
  rw [hi, Prod.mk.injEq] at ho
  exact absurd ho.1 (by decide)

/-! ## Changes of integer keys -/

theorem changedKey_int (k n : ℤ) : changedKey intKeys.callbacks k n = k + n := by
  have hincr : intKeys.callbacks.incr k n = k + n := rfl
  have hdecr : intKeys.callbacks.decr k (-n) = k - -n := rfl
  rw [changedKey, hincr, hdecr]
  split
  · omega
  · split <;> omega

/-- The call has a result, in which the extreme key is changed as it should be. -/
def Changes (change : ℤ → ℤ) (bh : BinHeap ℤ V) (run : Option (BinHeap ℤ V)) : Prop :=
  ∃ bh', run = some bh' ∧ ChangesRightly intKeys.toComparator change bh bh'

/-- In every heap of integer keys that a run reaches, and for every `int` amount, each of the
four changes of an extreme key does what it should exactly if the amount can be negated and the
head keeps up with the key. -/
theorem int_changes_correct_iff (mode : BinheapMode) (ops : List (HeapOp ℤ V))
    (hfits : StepsMeet (stepHeap intKeys) (OpFits intKeys) (binheapCreate mode) ops) :
    ∃ bh outs, runSteps (stepHeap intKeys) (binheapCreate mode) ops = some (bh, outs) ∧
      bh.mode = mode ∧ ∀ n : CInt,
      (Changes (fun k => k + n.1) bh (binheapIncreaseMaximum intKeys.callbacks bh n) ↔
        AmountFits bh n ∧ ChangeFits intKeys.callbacks bh .max n.1) ∧
      (Changes (fun k => k - n.1) bh (binheapDecreaseMaximum intKeys.callbacks bh n) ↔
        AmountFits bh n ∧ ChangeFits intKeys.callbacks bh .max (-n.1)) ∧
      (Changes (fun k => k + n.1) bh (binheapIncreaseMinimum intKeys.callbacks bh n) ↔
        AmountFits bh n ∧ ChangeFits intKeys.callbacks bh .min n.1) ∧
      (Changes (fun k => k - n.1) bh (binheapDecreaseMinimum intKeys.callbacks bh n) ↔
        AmountFits bh n ∧ ChangeFits intKeys.callbacks bh .min (-n.1)) := by
  obtain ⟨bh, outs, hrun, h, hmode⟩ := reached_consistent intKeys mode ops hfits
  have hcmp : intKeys.callbacks.cmp = intKeys.toComparator.cmp := rfl
  have hchange : ∀ (side : BinheapMode) {n : CInt} {amount : Option CInt} {m : ℤ}
      (change : ℤ → ℤ), (amount = some n ∧ m = n.1 ∨ amount = negInt n ∧ m = -n.1) →
      (∀ k, k + m = change k) →
      (Changes change bh (changeExtremum intKeys.callbacks bh side amount) ↔
        AmountFits bh n ∧ ChangeFits intKeys.callbacks bh side m) := by
    intro side n amount m change hamount heq
    have hkeys : (fun k => changedKey intKeys.callbacks k m) = change :=
      funext fun k => (changedKey_int k m).trans (heq k)
    rw [Changes, ← hkeys]
    exact (h.changeExtremum_right_iff hcmp side hamount).1
  refine ⟨bh, outs, hrun, hmode, fun n => ⟨?_, ?_, ?_, ?_⟩⟩
  · exact hchange .max _ (Or.inl ⟨rfl, rfl⟩) fun k => rfl
  · exact hchange .max _ (Or.inr ⟨rfl, rfl⟩) fun k => rfl
  · exact hchange .min _ (Or.inl ⟨rfl, rfl⟩) fun k => rfl
  · exact hchange .min _ (Or.inr ⟨rfl, rfl⟩) fun k => rfl

theorem int_changes_correct_iff_mixedRun :
    ∃ bh outs, runSteps (stepHeap intKeys) (binheapCreate .max) mixedRun = some (bh, outs) ∧
      bh.mode = .max ∧ ∀ n : CInt,
      (Changes (fun k => k + n.1) bh (binheapIncreaseMaximum intKeys.callbacks bh n) ↔
        AmountFits bh n ∧ ChangeFits intKeys.callbacks bh .max n.1) ∧
      (Changes (fun k => k - n.1) bh (binheapDecreaseMaximum intKeys.callbacks bh n) ↔
        AmountFits bh n ∧ ChangeFits intKeys.callbacks bh .max (-n.1)) ∧
      (Changes (fun k => k + n.1) bh (binheapIncreaseMinimum intKeys.callbacks bh n) ↔
        AmountFits bh n ∧ ChangeFits intKeys.callbacks bh .min n.1) ∧
      (Changes (fun k => k - n.1) bh (binheapDecreaseMinimum intKeys.callbacks bh n) ↔
        AmountFits bh n ∧ ChangeFits intKeys.callbacks bh .min (-n.1)) :=
  int_changes_correct_iff .max mixedRun (by decide)

/-- The root `2` becomes `-3`, above its child `1`. -/
theorem maximum_below_its_child :
    ¬ ∃ bh outs bh', runSteps (stepHeap intKeys) (binheapCreate .max)
        ([.change (.insert 1 ()), .change (.insert 2 ())] : List (HeapOp ℤ Unit)) =
          some (bh, outs) ∧
      binheapDecreaseMaximum intKeys.callbacks bh ⟨5, by decide⟩ = some bh' ∧
      ChangesRightly intKeys.toComparator (fun k => k - 5) bh bh' := by
  rintro ⟨bh, outs, bh', hrun, hstep, -, -, hreports⟩
  have hanswer : (runSteps (stepHeap intKeys) (binheapCreate .max)
      ([.change (.insert 1 ()), .change (.insert 2 ())] : List (HeapOp ℤ Unit))).bind
        (fun r => (binheapDecreaseMaximum intKeys.callbacks r.1 ⟨5, by decide⟩).map fun b =>
          (decide (b.mode = .max ∧ ((1 : ℤ), ()) ∈ contents b), modeExtremum intKeys.cmp b)) =
      some (true, some (0, some (-3, ()))) := by
    decide
  rw [hrun, Option.bind_some, hstep] at hanswer
  simp only [Option.map_some, Option.some.injEq, Prod.mk.injEq, decide_eq_true_eq] at hanswer
  obtain ⟨⟨hmode, hmem⟩, hreport⟩ := hanswer
  rcases hreports with ⟨hzero, -⟩ | ⟨i, hi, heq⟩
  · rw [hzero] at hmem
    exact absurd hmem (Multiset.notMem_zero _)
  · rw [hreport] at heq
    cases heq
    rw [hmode] at hi
    exact absurd (hi.2 _ hmem) (by decide)

/-! ## Walks -/

/-- In every heap that a run reaches, a walk with a callback that answers 1 or -1 does what
it should if it is tidy. -/
theorem walk_correct (cbs : OrderedCallbacks K) (mode : BinheapMode) (ops : List (HeapOp K V))
    (hfits : StepsMeet (stepHeap cbs) (OpFits cbs) (binheapCreate mode) ops) :
    ∃ bh outs, runSteps (stepHeap cbs) (binheapCreate mode) ops = some (bh, outs) ∧
      bh.mode = mode ∧
      ∀ cb : SteadyCallback K V, Tidy (removedBy cb.cb bh) bh → ∀ fuel, walkFuel bh ≤ fuel →
        ∃ s, binheapWalk cbs.cmp cb.cb fuel bh = some s ∧
          WalksRightly cbs.toComparator cb.cb bh s := by
  obtain ⟨bh, outs, hrun, h, hmode⟩ := reached_consistent cbs mode ops hfits
  exact ⟨bh, outs, hrun, hmode,
    fun cb htidy fuel hfuel => h.binheapWalk_spec cb.answers htidy hfuel⟩

theorem walk_correct_mixedRun :
    ∃ bh outs, runSteps (stepHeap intKeys) (binheapCreate .max) mixedRun = some (bh, outs) ∧
      bh.mode = .max ∧
      ∀ cb : SteadyCallback ℤ ℕ, Tidy (removedBy cb.cb bh) bh → ∀ fuel, walkFuel bh ≤ fuel →
        ∃ s, binheapWalk intKeys.cmp cb.cb fuel bh = some s ∧
          WalksRightly intKeys.toComparator cb.cb bh s :=
  walk_correct intKeys .max mixedRun (by decide)

/-- The trees are `3` and `2` with child `1`.  When the first one is removed, the other one
moves to its index, and the walk ends. -/
theorem removing_walk_stops_early :
    ¬ ∃ bh outs s, runSteps (stepHeap intKeys) (binheapCreate .max)
        ([.change (.insert 1 ()), .change (.insert 2 ()), .change (.insert 3 ())] :
          List (HeapOp ℤ Unit)) = some (bh, outs) ∧
      binheapWalk intKeys.cmp (fun _ _ _ => -1) (walkFuel bh) bh = some s ∧
      WalksRightly intKeys.toComparator (fun _ _ _ => -1) bh s := by
  rintro ⟨bh, outs, s, hrun, hwalk, hright⟩
  have hanswer : (runSteps (stepHeap intKeys) (binheapCreate .max)
      ([.change (.insert 1 ()), .change (.insert 2 ()), .change (.insert 3 ())] :
        List (HeapOp ℤ Unit))).bind (fun r =>
          (binheapWalk intKeys.cmp (fun _ _ _ => -1) (walkFuel r.1) r.1).map fun s =>
            (s.count, (contents r.1).card)) = some (1, 3) := by
    decide
  rw [hrun, Option.bind_some, hwalk] at hanswer
  simp only [Option.map_some, Option.some.injEq, Prod.mk.injEq] at hanswer
  have hcount := hright.count
  rw [hanswer.1, hanswer.2] at hcount
  exact absurd hcount (by decide)

end BinHeap
end LibHL
