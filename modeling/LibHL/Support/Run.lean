import Mathlib.Tactic.Common

/-!
# Runs of a partial transition function

An operation of a modelled component maps a state and an operation name to a
new state and an output, or has no result when the source would run into
undefined behaviour.  This module fixes what a run is, and packages the two
inductions over runs that the components use: a state invariant, and a
simulation by a reference component.
-/

namespace LibHL

variable {σ ι ω α : Type*}

/-- Perform the operations in order and collect their outputs. -/
def runSteps (step : σ → ι → Option (σ × ω)) : σ → List ι → Option (σ × List ω)
  | s, [] => some (s, [])
  | s, op :: ops => do
      let r ← step s op
      let rs ← runSteps step r.1 ops
      some (rs.1, r.2 :: rs.2)

/-- Every operation of the run meets `ok` in the state it is performed in. -/
def StepsMeet (step : σ → ι → Option (σ × ω)) (ok : σ → ι → Prop) :
    σ → List ι → Prop
  | _, [] => True
  | s, op :: ops => ok s op ∧
      ∀ r, step s op = some r → StepsMeet step ok r.1 ops

instance decidableStepsMeet (step : σ → ι → Option (σ × ω))
    (ok : σ → ι → Prop) [∀ s op, Decidable (ok s op)] :
    ∀ s ops, Decidable (StepsMeet step ok s ops)
  | _, [] => isTrue trivial
  | s, op :: ops =>
      match h : step s op with
      | none => decidable_of_iff (ok s op) (by simp [StepsMeet, h])
      | some r =>
          have := decidableStepsMeet step ok r.1 ops
          decidable_of_iff (ok s op ∧ StepsMeet step ok r.1 ops)
            (by simp [StepsMeet, h])

@[simp] theorem runSteps_nil (step : σ → ι → Option (σ × ω)) (s : σ) :
    runSteps step s [] = some (s, []) := rfl

theorem runSteps_cons_of_step {step : σ → ι → Option (σ × ω)} {s s' : σ}
    {op : ι} {o : ω} (h : step s op = some (s', o)) (ops : List ι) :
    runSteps step s (op :: ops) =
      (runSteps step s' ops).map fun rs => (rs.1, o :: rs.2) := by
  cases hrest : runSteps step s' ops with
  | none => simp [runSteps, h, hrest]
  | some rs => simp [runSteps, h, hrest]

theorem runSteps_cons_eq_some {step : σ → ι → Option (σ × ω)} {s t : σ}
    {op : ι} {ops : List ι} {os : List ω}
    (h : runSteps step s (op :: ops) = some (t, os)) :
    ∃ s' o os', step s op = some (s', o) ∧
      runSteps step s' ops = some (t, os') ∧ os = o :: os' := by
  cases hstep : step s op with
  | none => simp [runSteps, hstep] at h
  | some r =>
      have hstep' : step s op = some (r.1, r.2) := hstep
      rw [runSteps_cons_of_step hstep'] at h
      obtain ⟨rs, hrs, heq⟩ := Option.map_eq_some_iff.mp h
      cases heq
      exact ⟨r.1, r.2, rs.2, rfl, hrs, rfl⟩

/-- An invariant that every admitted step preserves holds at the end of every
admitted run. -/
theorem invariant_of_runSteps {step : σ → ι → Option (σ × ω)}
    {ok : σ → ι → Prop} {Inv : σ → Prop}
    (hstep : ∀ s op s' o, Inv s → ok s op → step s op = some (s', o) → Inv s') :
    ∀ (ops : List ι) (s t : σ) (os : List ω), Inv s →
      StepsMeet step ok s ops → runSteps step s ops = some (t, os) → Inv t := by
  intro ops
  induction ops with
  | nil =>
      intro s t os hs _ hrun
      cases hrun
      exact hs
  | cons op ops ih =>
      intro s t os hs hok hrun
      obtain ⟨s', o, os', hs', hrest, -⟩ := runSteps_cons_eq_some hrun
      exact ih s' t os' (hstep s op s' o hs hok.1 hs') (hok.2 _ hs') hrest

/-- An invariant that every step preserves holds at the end of every run. -/
theorem invariant_of_all_steps {step : σ → ι → Option (σ × ω)} {Inv : σ → Prop}
    (hstep : ∀ s op s' o, Inv s → step s op = some (s', o) → Inv s') :
    ∀ (ops : List ι) (s t : σ) (os : List ω), Inv s →
      runSteps step s ops = some (t, os) → Inv t := by
  intro ops
  induction ops with
  | nil =>
      intro s t os hs hrun
      cases hrun
      exact hs
  | cons op ops ih =>
      intro s t os hs hrun
      obtain ⟨s', o, os', hs', hrest, -⟩ := runSteps_cons_eq_some hrun
      exact ih s' t os' (hstep s op s' o hs hs') hrest

/-- The outputs and the final state of a total reference component. -/
def refRun (ref : α → ι → α × ω) : α → List ι → α × List ω
  | a, [] => (a, [])
  | a, op :: ops =>
      let r := ref a op
      let rs := refRun ref r.1 ops
      (rs.1, r.2 :: rs.2)

/-- Step-by-step simulation: if every admitted step succeeds with the output
of the reference and re-establishes the relation, then so does every admitted
run. -/
theorem runSteps_refines {step : σ → ι → Option (σ × ω)}
    {ref : α → ι → α × ω} {ok : σ → ι → Prop} {R : σ → α → Prop}
    (hstep : ∀ s a op, R s a → ok s op →
      ∃ s', step s op = some (s', (ref a op).2) ∧ R s' (ref a op).1) :
    ∀ (ops : List ι) (s : σ) (a : α), R s a → StepsMeet step ok s ops →
      ∃ s', runSteps step s ops = some (s', (refRun ref a ops).2) ∧
        R s' (refRun ref a ops).1 := by
  intro ops
  induction ops with
  | nil =>
      intro s a hR _
      exact ⟨s, rfl, hR⟩
  | cons op ops ih =>
      intro s a hR hok
      obtain ⟨s', hs', hR'⟩ := hstep s a op hR hok.1
      obtain ⟨t, ht, hRt⟩ := ih s' (ref a op).1 hR' (hok.2 _ hs')
      refine ⟨t, ?_, hRt⟩
      rw [runSteps_cons_of_step hs', ht]
      rfl

/-- Every step of the run has the output of the reference, and the states before and after it
are related to those of the reference. -/
def RunsAs (step : σ → ι → Option (σ × ω)) (ref : α → ι → α × ω) (R : σ → α → Prop) :
    σ → α → List ι → Prop
  | s, a, [] => R s a
  | s, a, op :: ops => R s a ∧ ∃ s', step s op = some (s', (ref a op).2) ∧
      RunsAs step ref R s' (ref a op).1 ops

theorem RunsAs.rel {step : σ → ι → Option (σ × ω)} {ref : α → ι → α × ω} {R : σ → α → Prop}
    {s : σ} {a : α} {ops : List ι} (h : RunsAs step ref R s a ops) : R s a := by
  cases ops with
  | nil => exact h
  | cons op ops => exact h.1

/-- If a condition says exactly which steps follow the reference, then it says of a run
whether all of its steps do. -/
theorem runsAs_iff_stepsMeet {step : σ → ι → Option (σ × ω)} {ref : α → ι → α × ω}
    {ok : σ → ι → Prop} {R : σ → α → Prop}
    (hstep : ∀ s a op, R s a →
      (ok s op ↔ ∃ s', step s op = some (s', (ref a op).2) ∧ R s' (ref a op).1)) :
    ∀ (ops : List ι) (s : σ) (a : α), R s a →
      (RunsAs step ref R s a ops ↔ StepsMeet step ok s ops) := by
  intro ops
  induction ops with
  | nil => exact fun s a hR => iff_of_true hR trivial
  | cons op ops ih =>
      intro s a hR
      constructor
      · rintro ⟨-, s', hs', hrest⟩
        refine ⟨(hstep s a op hR).mpr ⟨s', hs', hrest.rel⟩, fun r hr => ?_⟩
        cases hs'.symm.trans hr
        exact (ih s' _ hrest.rel).mp hrest
      · rintro ⟨hok, hrest⟩
        obtain ⟨s', hs', hR'⟩ := (hstep s a op hR).mp hok
        exact ⟨hR, s', hs', (ih s' _ hR').mpr (hrest _ hs')⟩

/-- A run of a reference component that has a choice. -/
inductive RefRuns (ref : α → ι → ω → α → Prop) : α → List ι → List ω → α → Prop where
  | nil (a : α) : RefRuns ref a [] [] a
  | cons {a a' b : α} {op : ι} {o : ω} {ops : List ι} {os : List ω}
      (head : ref a op o a') (tail : RefRuns ref a' ops os b) :
      RefRuns ref a (op :: ops) (o :: os) b

/-- Simulation by a reference component that has a choice: if every admitted step
succeeds, and the reference can answer in the same way, then so for every
admitted run. -/
theorem runSteps_refines_choice_of_meet {step : σ → ι → Option (σ × ω)}
    {ref : α → ι → ω → α → Prop} {ok : σ → ι → Prop} {R : σ → α → Prop}
    (hstep : ∀ s a op, R s a → ok s op →
      ∃ s' o a', step s op = some (s', o) ∧ ref a op o a' ∧ R s' a') :
    ∀ (ops : List ι) (s : σ) (a : α), R s a → StepsMeet step ok s ops →
      ∃ s' os a', runSteps step s ops = some (s', os) ∧ RefRuns ref a ops os a' ∧
        R s' a' := by
  intro ops
  induction ops with
  | nil =>
      intro s a hR _
      exact ⟨s, [], a, rfl, .nil a, hR⟩
  | cons op ops ih =>
      intro s a hR hok
      obtain ⟨s₁, o, a₁, hs₁, href, hR₁⟩ := hstep s a op hR hok.1
      obtain ⟨s₂, os, a₂, hs₂, hrefs, hR₂⟩ := ih s₁ a₁ hR₁ (hok.2 _ hs₁)
      refine ⟨s₂, o :: os, a₂, ?_, .cons href hrefs, hR₂⟩
      rw [runSteps_cons_of_step hs₁, hs₂]
      rfl

/-- If every admitted step succeeds and preserves the invariant, then so does every
admitted run. -/
theorem runSteps_keeps {step : σ → ι → Option (σ × ω)} {ok : σ → ι → Prop} {Inv : σ → Prop}
    (hstep : ∀ s op, Inv s → ok s op → ∃ s' o, step s op = some (s', o) ∧ Inv s')
    (ops : List ι) (s : σ) (hs : Inv s) (hmeet : StepsMeet step ok s ops) :
    ∃ t os, runSteps step s ops = some (t, os) ∧ Inv t := by
  let ref : Unit → ι → ω → Unit → Prop := fun _ _ _ _ => True
  have hrefines : ∀ s a op, Inv s → ok s op →
      ∃ s' o a', step s op = some (s', o) ∧ ref a op o a' ∧ Inv s' := by
    intro s a op hinv hok
    obtain ⟨s', o, hs', hinv'⟩ := hstep s op hinv hok
    exact ⟨s', o, a, hs', trivial, hinv'⟩
  obtain ⟨t, os, -, hrun, -, ht⟩ := runSteps_refines_choice_of_meet
    (R := fun s _ => Inv s) hrefines ops s () hs hmeet
  exact ⟨t, os, hrun, ht⟩

/-- A condition that follows from an invariant is met by every step. -/
theorem stepsMeet_of_invariant {step : σ → ι → Option (σ × ω)} {ok : σ → ι → Prop}
    (Inv : σ → Prop) (hok : ∀ s op, Inv s → ok s op)
    (hstep : ∀ s op s' o, Inv s → step s op = some (s', o) → Inv s') :
    ∀ (ops : List ι) (s : σ), Inv s → StepsMeet step ok s ops := by
  intro ops
  induction ops with
  | nil =>
      intro s _
      trivial
  | cons op ops ih =>
      intro s hs
      exact ⟨hok s op hs, fun r hr => ih r.1 (hstep s op r.1 r.2 hs hr)⟩

theorem StepsMeet.imp {step : σ → ι → Option (σ × ω)} {ok ok' : σ → ι → Prop}
    (hok : ∀ s op, ok s op → ok' s op) :
    ∀ {ops : List ι} {s : σ}, StepsMeet step ok s ops → StepsMeet step ok' s ops := by
  intro ops
  induction ops with
  | nil => exact fun _ => trivial
  | cons op ops ih => exact fun h => ⟨hok _ op h.1, fun r hr => ih (h.2 r hr)⟩

theorem StepsMeet.and {step : σ → ι → Option (σ × ω)} {ok ok' : σ → ι → Prop} :
    ∀ {ops : List ι} {s : σ}, StepsMeet step ok s ops → StepsMeet step ok' s ops →
      StepsMeet step (fun s op => ok s op ∧ ok' s op) s ops := by
  intro ops
  induction ops with
  | nil => exact fun _ _ => trivial
  | cons op ops ih =>
      exact fun h h' => ⟨⟨h.1, h'.1⟩, fun r hr => ih (h.2 r hr) (h'.2 r hr)⟩

theorem stepsMeet_of_forall {step : σ → ι → Option (σ × ω)} {ok : σ → ι → Prop}
    (hok : ∀ s op, ok s op) (ops : List ι) (s : σ) : StepsMeet step ok s ops :=
  stepsMeet_of_invariant (fun _ => True) (fun s op _ => hok s op)
    (fun _ _ _ _ _ _ => trivial) ops s trivial

/-- The simulation when every step is admitted. -/
theorem runSteps_refines_choice {step : σ → ι → Option (σ × ω)}
    {ref : α → ι → ω → α → Prop} {R : σ → α → Prop}
    (hstep : ∀ s a op, R s a →
      ∃ s' o a', step s op = some (s', o) ∧ ref a op o a' ∧ R s' a')
    (ops : List ι) (s : σ) (a : α) (hR : R s a) :
    ∃ s' os a', runSteps step s ops = some (s', os) ∧ RefRuns ref a ops os a' ∧ R s' a' := by
  have hmeet : StepsMeet step (fun _ _ => True) s ops :=
    stepsMeet_of_forall (fun _ _ => trivial) ops s
  exact runSteps_refines_choice_of_meet (fun s a op hR _ => hstep s a op hR) ops s a hR hmeet

end LibHL
