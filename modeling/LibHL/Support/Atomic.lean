import Mathlib.Logic.Function.Basic
import LibHL.Support.Run

/-!
# Programs of atomic steps

A program is a sequence of atomic steps on a shared state, where the next step
depends on what the last one returned.  The same program can run alone, or as one
of several threads whose steps are interleaved.

A step without a result is one that cannot be taken: the source would access
memory that is not there, or the program gives up.  A loop that retries is
written with a bound on its rounds.  Every finite interleaving of a loop without a
bound is one of a loop with a large enough bound, so that statements for all
bounds cover it.

The last sections are a logic for threads: an invariant of the shared state, and for
each thread what the others may do to the state and what it does itself, with rules for a
program that runs alone.
-/

namespace LibHL

/-- A program on states `σ` that returns an `α`. -/
inductive Prog (σ α : Type) : Type 1 where
  | ret (a : α) : Prog σ α
  | act (β : Type) (f : σ → Option (σ × β)) (k : β → Prog σ α) : Prog σ α

namespace Prog

variable {σ α β γ : Type}

/-- Run one program after the other. -/
protected def bind : Prog σ α → (α → Prog σ γ) → Prog σ γ
  | ret a, k => k a
  | act β f k', k => act β f fun b => (k' b).bind k

instance : Monad (Prog σ) where
  pure := ret
  bind := Prog.bind

theorem bind_assoc {δ : Type} (p : Prog σ α) (k : α → Prog σ γ) (k' : γ → Prog σ δ) :
    p >>= k >>= k' = p >>= fun a => k a >>= k' := by
  induction p with
  | ret a => rfl
  | act β f l ih => exact congrArg (act β f) (funext ih)

/-- A single step. -/
def atomic (f : σ → Option (σ × α)) : Prog σ α := act α f ret

/-- No step at all. -/
def stop : Prog σ α := act α (fun _ => none) ret

/-- Run a program alone. -/
def run : Prog σ α → σ → Option (σ × α)
  | ret a, s => some (s, a)
  | act _ f k, s => (f s).bind fun r => (k r.2).run r.1

@[simp] theorem run_pure (a : α) (s : σ) : run (pure a : Prog σ α) s = some (s, a) := rfl

@[simp] theorem run_atomic (f : σ → Option (σ × α)) (s : σ) : run (atomic f) s = f s := by
  show (f s).bind (fun r => some (r.1, r.2)) = f s
  cases f s with
  | none => rfl
  | some r => rfl

theorem run_bind (p : Prog σ α) (k : α → Prog σ γ) (s : σ) :
    run (p >>= k) s = (run p s).bind fun r => run (k r.2) r.1 := by
  induction p generalizing s with
  | ret a => rfl
  | act β f k' ih =>
      show ((f s).bind fun r => ((k' r.2).bind k).run r.1) = _
      rw [run, Option.bind_assoc]
      exact congrArg _ (funext fun r => ih r.2 r.1)

theorem run_bind_of_run {p : Prog σ α} {k : α → Prog σ γ} {s s' : σ} {a : α}
    (h : run p s = some (s', a)) : run (p >>= k) s = run (k a) s' := by
  rw [run_bind, h]
  rfl

end Prog

/-! ## Interleavings -/

/-- A shared state and what the threads still have to do. -/
structure Threads (ι σ : Type) where
  state : σ
  progs : ι → Prog σ Unit

namespace Threads

variable {ι σ : Type} [DecidableEq ι]

/-- A step of thread `i`. -/
def step (c : Threads ι σ) (i : ι) : Option (Threads ι σ × Unit) :=
  match c.progs i with
  | .ret _ => none
  | .act _ f k =>
      (f c.state).map fun r => (⟨r.1, Function.update c.progs i (k r.2)⟩, ())

/-- The states that a schedule of steps passes through. -/
abbrev run (c : Threads ι σ) (schedule : List ι) : Option (Threads ι σ × List Unit) :=
  runSteps step c schedule

/-- A condition on a step that is stated with the states before and after it. -/
def Meets (cond : ι → σ → σ → Prop) (c : Threads ι σ) (i : ι) : Prop :=
  ∀ r, step c i = some r → cond i c.state r.1.state

instance (cond : ι → σ → σ → Prop) [∀ i s s', Decidable (cond i s s')] (c : Threads ι σ) (i : ι) :
    Decidable (Meets cond c i) :=
  match h : step c i with
  | none => isTrue (by simp [Meets, h])
  | some r => decidable_of_iff (cond i c.state r.1.state) (by simp [Meets, h])

end Threads

/-! ## What threads do to each other -/

namespace Prog

variable {σ α β γ : Type}

/-- What a thread relies on and guarantees: an invariant of the state, the changes
the other threads make, the changes it makes itself, and the condition its steps
are assumed to meet. -/
structure Spec (σ : Type) where
  inv : σ → Prop
  rely : σ → σ → Prop
  guar : σ → σ → Prop
  cond : σ → σ → Prop
  rely_refl : ∀ s, rely s s
  rely_trans : ∀ s₁ s₂ s₃, rely s₁ s₂ → rely s₂ s₃ → rely s₁ s₃

variable {S : Spec σ} {P P' : σ → Prop} {Q Q' : α → σ → Prop}

/-- From a state on, the program keeps to its specification whatever the other
threads do, and ends in a state with `Q`. -/
def Keeps (S : Spec σ) (Q : α → σ → Prop) : Prog σ α → σ → Prop
  | ret a, s => Q a s
  | act _ f k, s => ∀ s₁, S.rely s s₁ → S.inv s₁ → ∀ s₂ b, f s₁ = some (s₂, b) →
      S.cond s₁ s₂ → S.inv s₂ ∧ S.guar s₁ s₂ ∧ Keeps S Q (k b) s₂

/-- A fact that the other threads do not change. -/
def Stable (S : Spec σ) (P : σ → Prop) : Prop := ∀ s s', S.rely s s' → S.inv s' → P s → P s'

theorem Stable.and {R : σ → Prop} (hP : Stable S P) (hR : Stable S R) :
    Stable S (fun s => P s ∧ R s) :=
  fun s s' hrely hinv h => ⟨hP s s' hrely hinv h.1, hR s s' hrely hinv h.2⟩

/-- The program keeps to its specification from every state with `P`. -/
def Triple (S : Spec σ) (P : σ → Prop) (p : Prog σ α) (Q : α → σ → Prop) : Prop :=
  ∀ s, P s → Keeps S Q p s

theorem Triple.ret {a : α} (h : ∀ s, P s → Q a s) : Triple S P (pure a) Q := h

/-- A step between facts that are stable. -/
theorem Triple.atomic {f : σ → Option (σ × α)} (hP : Stable S P)
    (h : ∀ s s' a, S.inv s → P s → f s = some (s', a) → S.cond s s' →
      S.inv s' ∧ S.guar s s' ∧ Q a s') : Triple S P (Prog.atomic f) Q := by
  intro s hs s₁ hrely hinv s₂ a hf hcond
  exact h s₁ s₂ a hinv (hP s s₁ hrely hinv hs) hf hcond

theorem Triple.stop : Triple S P (Prog.stop : Prog σ α) Q := by
  intro s _ s₁ _ _ s₂ b hf
  cases hf

theorem Keeps.bind {p : Prog σ α} {k : α → Prog σ γ} {Q' : γ → σ → Prop} {s : σ}
    (hp : Keeps S Q p s) (hk : ∀ a, Triple S (Q a) (k a) Q') : Keeps S Q' (p >>= k) s := by
  induction p generalizing s with
  | ret a => exact hk a s hp
  | act β f k' ih =>
      intro s₁ hrely hinv s₂ b hf hcond
      obtain ⟨hinv₂, hguar, hrest⟩ := hp s₁ hrely hinv s₂ b hf hcond
      exact ⟨hinv₂, hguar, ih b hrest⟩

theorem Triple.bind {p : Prog σ α} {k : α → Prog σ γ} {Q' : γ → σ → Prop}
    (hp : Triple S P p Q) (hk : ∀ a, Triple S (Q a) (k a) Q') :
    Triple S P (p >>= k) Q' :=
  fun s hs => (hp s hs).bind hk

theorem Triple.bind_then {p : Prog σ α} {k : α → Prog σ β} {Q : β → σ → Prop}
    {k' : β → Prog σ γ} {Q' : γ → σ → Prop} (hp : Triple S P (p >>= k) Q)
    (hk : ∀ b, Triple S (Q b) (k' b) Q') : Triple S P (p >>= fun a => k a >>= k') Q' := by
  rw [← bind_assoc]
  exact hp.bind hk

theorem Keeps.weaken {p : Prog σ α} {s : σ} (hQ : ∀ a s, Q a s → Q' a s)
    (h : Keeps S Q p s) : Keeps S Q' p s := by
  induction p generalizing s with
  | ret a => exact hQ a s h
  | act β f k ih =>
      intro s₁ hrely hinv s₂ b hf hcond
      obtain ⟨hinv₂, hguar, hrest⟩ := h s₁ hrely hinv s₂ b hf hcond
      exact ⟨hinv₂, hguar, ih b hrest⟩

theorem Triple.weaken {p : Prog σ α} (hP : ∀ s, P' s → P s) (hQ : ∀ a s, Q a s → Q' a s)
    (h : Triple S P p Q) : Triple S P' p Q' :=
  fun s hs => (h s (hP s hs)).weaken hQ

theorem Triple.of_fact {φ : Prop} {p : Prog σ α} (h : φ → Triple S P p Q) :
    Triple S (fun s => φ ∧ P s) p Q :=
  fun s hs => h hs.1 s hs.2

/-- Every step of the program, whatever the steps before it return, is in `R`. -/
def Steps (R : σ → σ → Prop) : Prog σ α → Prop
  | ret _ => True
  | act _ f k => (∀ s s' b, f s = some (s', b) → R s s') ∧ ∀ b, Steps R (k b)

section Steps

variable {R : σ → σ → Prop}

theorem Steps.pure (a : α) : Steps R (Pure.pure a : Prog σ α) := trivial

theorem Steps.atomic {f : σ → Option (σ × α)} (h : ∀ s s' a, f s = some (s', a) → R s s') :
    Steps R (Prog.atomic f) :=
  ⟨h, fun _ => trivial⟩

theorem Steps.stop : Steps R (Prog.stop : Prog σ α) := by
  refine ⟨?_, fun _ => trivial⟩
  intro s s' b h
  cases h

theorem Steps.bind {p : Prog σ α} {k : α → Prog σ γ} (hp : Steps R p)
    (hk : ∀ a, Steps R (k a)) : Steps R (p >>= k) := by
  induction p with
  | ret a => exact hk a
  | act β f l ih => exact ⟨hp.1, fun b => ih b (hp.2 b)⟩

/-- A program of steps that keep the invariant and the guarantee keeps every fact that
neither the other threads nor its own steps change. -/
theorem Steps.triple {p : Prog σ α} (h : Steps R p)
    (hinv : ∀ s s', S.inv s → R s s' → S.inv s' ∧ S.guar s s') (hP : Stable S P)
    (hRP : ∀ s s', R s s' → P s → P s') : Triple S P p (fun _ => P) := by
  induction p with
  | ret a => exact fun s hs => hs
  | act β f k ih =>
      intro s hs s₁ hrely hs₁ s₂ b hf _
      have hR := h.1 s₁ s₂ b hf
      obtain ⟨hs₂, hguar⟩ := hinv s₁ s₂ hs₁ hR
      exact ⟨hs₂, hguar, ih b (h.2 b) s₂ (hRP s₁ s₂ hR (hP s s₁ hrely hs₁ hs))⟩

end Steps

/-! ## A program alone -/

/-- Whenever the program runs alone from a state with `P` and comes to its end, `Q` holds. -/
def Ends (P : σ → Prop) (p : Prog σ α) (Q : α → σ → Prop) : Prop :=
  ∀ s s' a, P s → p.run s = some (s', a) → Q a s'

/-- The program keeps an invariant when it runs alone. -/
abbrev Maintains (I : σ → Prop) (p : Prog σ α) : Prop := Ends I p fun _ => I

section Ends

variable {I P : σ → Prop} {Q : α → σ → Prop} {Q' : γ → σ → Prop}

theorem Ends.pure {a : α} (h : ∀ s, P s → Q a s) : Ends P (Pure.pure a) Q := by
  intro s s' b hs hrun
  cases hrun
  exact h s hs

theorem Ends.stop : Ends P (Prog.stop : Prog σ α) Q := by
  intro s s' a _ hrun
  cases hrun

theorem Ends.atomic {f : σ → Option (σ × α)}
    (h : ∀ s s' a, P s → f s = some (s', a) → Q a s') : Ends P (Prog.atomic f) Q := by
  intro s s' a hs hrun
  exact h s s' a hs ((run_atomic f s).symm.trans hrun)

theorem Ends.bind {p : Prog σ α} {k : α → Prog σ γ} (hp : Ends P p Q)
    (hk : ∀ a, Ends (Q a) (k a) Q') : Ends P (p >>= k) Q' := by
  intro s s' b hs hrun
  rw [run_bind] at hrun
  obtain ⟨r, hr, hrest⟩ := Option.bind_eq_some_iff.mp hrun
  exact hk r.2 r.1 s' b (hp s r.1 r.2 hs hr) hrest

theorem Ends.weaken {P' : σ → Prop} {Q' : α → σ → Prop} {p : Prog σ α} (h : Ends P p Q)
    (hP : ∀ s, P' s → P s) (hQ : ∀ a s, Q a s → Q' a s) : Ends P' p Q' :=
  fun s s' a hs hrun => hQ a s' (h s s' a (hP s hs) hrun)

theorem Maintains.pure (a : α) : Maintains I (Pure.pure a : Prog σ α) := Ends.pure fun _ hs => hs

theorem Steps.maintains {R : σ → σ → Prop} {p : Prog σ α} (h : Steps R p)
    (hR : ∀ s s', R s s' → I s → I s') : Maintains I p := by
  induction p with
  | ret a => exact Maintains.pure a
  | act β f k ih =>
      intro s s' a hs hrun
      obtain ⟨r, hr, hrest⟩ := Option.bind_eq_some_iff.mp hrun
      exact ih r.2 (h.2 r.2) r.1 s' a (hR s r.1 (h.1 s r.1 r.2 hr) hs) hrest

end Ends

/-- A step of a program. -/
def Takes : Prog σ α → σ → Prog σ α → σ → Prop
  | ret _, _, _, _ => False
  | act _ f k, s, p', s' => ∃ b, f s = some (s', b) ∧ p' = k b

theorem Steps.takes {R : σ → σ → Prop} {p p' : Prog σ α} {s s' : σ} (h : Steps R p)
    (hs : p.Takes s p' s') : R s s' ∧ Steps R p' := by
  cases p with
  | ret a => exact hs.elim
  | act β f k =>
      obtain ⟨b, hf, rfl⟩ := hs
      exact ⟨h.1 s s' b hf, h.2 b⟩

theorem Keeps.takes {p p' : Prog σ α} {s s' : σ} (h : Keeps S Q p s) (hinv : S.inv s)
    (hs : p.Takes s p' s') (hcond : S.cond s s') :
    S.inv s' ∧ S.guar s s' ∧ Keeps S Q p' s' := by
  cases p with
  | ret a => exact hs.elim
  | act β f k =>
      obtain ⟨b, hf, rfl⟩ := hs
      exact h s (S.rely_refl s) hinv s' b hf hcond

theorem Keeps.of_rely {p : Prog σ α} {s s' : σ} (hQ : ∀ a, Stable S (Q a))
    (h : Keeps S Q p s) (hrely : S.rely s s') (hinv : S.inv s') : Keeps S Q p s' := by
  cases p with
  | ret a => exact hQ a s s' hrely hinv h
  | act β f k =>
      intro s₁ hrely₁ hinv₁
      exact h s₁ (S.rely_trans s s' s₁ hrely hrely₁) hinv₁

end Prog

namespace Threads

open Prog

variable {ι σ : Type} [DecidableEq ι]

theorem takes_of_step {c c' : Threads ι σ} {i : ι} {o : Unit} (h : step c i = some (c', o)) :
    (c.progs i).Takes c.state (c'.progs i) c'.state ∧ ∀ j, j ≠ i → c'.progs j = c.progs j := by
  rw [step] at h
  cases hp : c.progs i with
  | ret a =>
      rw [hp] at h
      cases h
  | act β f k =>
      rw [hp] at h
      obtain ⟨⟨s, b⟩, hf, heq⟩ := Option.map_eq_some_iff.mp h
      cases heq
      refine ⟨⟨b, hf, ?_⟩, ?_⟩
      · exact Function.update_self ..
      · exact fun j hj => Function.update_of_ne hj ..

/-- Threads that keep to specifications with one invariant, where each guarantees
what the others rely on, keep to them in every run. -/
theorem keeps_of_run (spec : ι → Spec σ) {inv : σ → Prop} {cond : ι → σ → σ → Prop}
    {Q : ι → Unit → σ → Prop} (hinv : ∀ i, (spec i).inv = inv)
    (hcond : ∀ i, (spec i).cond = cond i)
    (hguar : ∀ i j, i ≠ j → ∀ s s', inv s → inv s' → (spec i).guar s s' → (spec j).rely s s')
    (hQ : ∀ i, Stable (spec i) (Q i ()))
    (schedule : List ι) (c c' : Threads ι σ) (os : List Unit) (hc : inv c.state)
    (hkeeps : ∀ i, Keeps (spec i) (Q i) (c.progs i) c.state)
    (hmeet : StepsMeet step (Meets cond) c schedule)
    (hrun : c.run schedule = some (c', os)) :
    inv c'.state ∧ ∀ i, Keeps (spec i) (Q i) (c'.progs i) c'.state := by
  have hstep : ∀ (c : Threads ι σ) (i : ι) (c' : Threads ι σ) (o : Unit),
      (inv c.state ∧ ∀ j, Keeps (spec j) (Q j) (c.progs j) c.state) →
      Meets cond c i → step c i = some (c', o) →
      (inv c'.state ∧ ∀ j, Keeps (spec j) (Q j) (c'.progs j) c'.state) := by
    rintro c i c' o ⟨hc, hkeeps⟩ hmeets hs
    obtain ⟨htakes, hother⟩ := takes_of_step hs
    obtain ⟨hinv₂, hg, hrest⟩ := (hkeeps i).takes (by rw [hinv]; exact hc) htakes
      (by rw [hcond]; exact hmeets (c', o) hs)
    rw [hinv] at hinv₂
    refine ⟨hinv₂, fun j => ?_⟩
    by_cases hj : j = i
    · subst hj
      exact hrest
    · rw [hother j hj]
      have hrely := hguar i j (Ne.symm hj) _ _ hc hinv₂ hg
      exact (hkeeps j).of_rely (fun _ => hQ j) hrely (by rw [hinv]; exact hinv₂)
  exact invariant_of_runSteps hstep schedule c c' os ⟨hc, hkeeps⟩ hmeet hrun

end Threads
end LibHL
