import LibHL.Support.Run
import Mathlib.Algebra.Order.Group.Multiset
import Mathlib.Data.Multiset.UnionInter

/-!
# What a component holds for its users

The calls of a component bring things in, and their answers take things out again.  A call
balances if nothing gets lost and nothing is made up: what is held afterwards and what was
taken out are together what was held before and what was brought in.  Calls that balance make
runs that do.  If nothing is brought in twice, then nothing is taken out twice, and what has
been taken out is not held any more.
-/

namespace LibHL

variable {σ ι ω α : Type*}

/-- What is held in a state, what a call brings in, and what it takes out when it has
answered. -/
structure Holdings (σ ι ω α : Type*) where
  held : σ → Multiset α
  brought : ι → Multiset α
  taken : ι → ω → Multiset α

namespace Holdings

variable (A : Holdings σ ι ω α)

/-- The call loses nothing and makes nothing up. -/
def Balances (s : σ) (op : ι) (s' : σ) (o : ω) : Prop :=
  A.held s' + A.taken op o = A.held s + A.brought op

/-- What the calls of a run bring in. -/
def allBrought : List ι → Multiset α
  | [] => 0
  | op :: ops => A.brought op + allBrought ops

/-- What the calls of a run take out. -/
def allTaken : List ι → List ω → Multiset α
  | op :: ops, o :: os => A.taken op o + allTaken ops os
  | _, _ => 0

@[simp] theorem allBrought_nil : A.allBrought [] = 0 := rfl

@[simp] theorem allBrought_cons (op : ι) (ops : List ι) :
    A.allBrought (op :: ops) = A.brought op + A.allBrought ops := rfl

@[simp] theorem allTaken_nil (os : List ω) : A.allTaken [] os = 0 := by
  cases os <;> rfl

@[simp] theorem allTaken_cons (op : ι) (ops : List ι) (o : ω) (os : List ω) :
    A.allTaken (op :: ops) (o :: os) = A.taken op o + A.allTaken ops os := rfl

/-- If every admitted call succeeds and balances, then so does every admitted run. -/
theorem run_balances {step : σ → ι → Option (σ × ω)} {ok : σ → ι → Prop} {Inv : σ → Prop}
    (hstep : ∀ s op, Inv s → ok s op →
      ∃ s' o, step s op = some (s', o) ∧ Inv s' ∧ A.Balances s op s' o) :
    ∀ (ops : List ι) (s : σ), Inv s → StepsMeet step ok s ops →
      ∃ t os, runSteps step s ops = some (t, os) ∧ Inv t ∧
        A.held t + A.allTaken ops os = A.held s + A.allBrought ops := by
  intro ops
  induction ops with
  | nil =>
      intro s hs _
      exact ⟨s, [], rfl, hs, rfl⟩
  | cons op ops ih =>
      intro s hs hok
      obtain ⟨s₁, o, hs₁, hinv, hbal⟩ := hstep s op hs hok.1
      obtain ⟨t, os, hrun, ht, hrest⟩ := ih s₁ hinv (hok.2 _ hs₁)
      refine ⟨t, o :: os, ?_, ht, ?_⟩
      · rw [runSteps_cons_of_step hs₁, hrun]
        rfl
      · calc A.held t + (A.taken op o + A.allTaken ops os)
            = A.held t + A.allTaken ops os + A.taken op o := by rw [add_comm (A.taken op o),
              add_assoc]
          _ = A.held s₁ + A.taken op o + A.allBrought ops := by rw [hrest, add_right_comm]
          _ = A.held s + (A.brought op + A.allBrought ops) := by rw [hbal, add_assoc]

/-- The call brings in nothing that is held already. -/
def Fresh (s : σ) (op : ι) : Prop := ∀ x ∈ A.brought op, x ∉ A.held s

/-- If calls balance as long as they bring in what is not there yet, then runs do that bring in
nothing twice. -/
theorem run_balances_of_nodup {step : σ → ι → Option (σ × ω)} {ok : σ → ι → Prop}
    {Inv : σ → Prop}
    (hstep : ∀ s op, Inv s → ok s op → A.Fresh s op →
      ∃ s' o, step s op = some (s', o) ∧ Inv s' ∧ A.Balances s op s' o)
    (ops : List ι) (s : σ) (hs : Inv s) (hok : StepsMeet step ok s ops)
    (hnodup : (A.held s + A.allBrought ops).Nodup) :
    ∃ t os, runSteps step s ops = some (t, os) ∧ Inv t ∧
      A.held t + A.allTaken ops os = A.held s + A.allBrought ops := by
  have hfresh : StepsMeet step A.Fresh s ops := by
    induction ops generalizing s with
    | nil => trivial
    | cons op ops ih =>
        rw [allBrought_cons, ← add_assoc] at hnodup
        have hnow : A.Fresh s op := fun x hx hheld =>
          Multiset.disjoint_left.mp (Multiset.nodup_add.mp (Multiset.nodup_add.mp hnodup).1).2.2
            hheld hx
        refine ⟨hnow, fun r hr => ?_⟩
        obtain ⟨s', o, hs', hinv, hbal⟩ := hstep s op hs hok.1 hnow
        cases hs'.symm.trans hr
        refine ih s' hinv (hok.2 _ hs') (Multiset.nodup_of_le ?_ hnodup)
        rw [← show A.held s' + A.taken op o = A.held s + A.brought op from hbal]
        exact add_le_add_left (Multiset.le_add_right _ _) _
  exact A.run_balances (fun s op hs h => hstep s op hs h.1 h.2) ops s hs (hok.and hfresh)

end Holdings
end LibHL
