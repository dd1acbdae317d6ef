import Mathlib.Logic.Function.Iterate
import Mathlib.Data.Fintype.Card

/-!
# Loops over a finite range

A loop that applies a function until a condition holds, with a bound on the number of its
steps.  On numbers below a bound that many steps are enough: a loop that has not stopped by
then has been at some number twice.
-/

namespace LibHL
namespace Loop

variable {σ : Type*} {stop : σ → Prop} {f : σ → σ} {x y : σ} {k m : ℕ}

/-- At most `fuel` tests of the condition. -/
def loop (stop : σ → Prop) [DecidablePred stop] (f : σ → σ) : ℕ → σ → Option σ
  | 0, _ => none
  | fuel + 1, x => if stop x then some x else loop stop f fuel (f x)

/-- The first value that meets the condition comes after `k` steps. -/
structure StopsAfter (stop : σ → Prop) (f : σ → σ) (x : σ) (k : ℕ) : Prop where
  stops : stop (f^[k] x)
  before : ∀ j < k, ¬ stop (f^[j] x)

theorem StopsAfter.of_step (hx : ¬ stop x) (h : StopsAfter stop f (f x) k) :
    StopsAfter stop f x (k + 1) := by
  refine ⟨h.stops, ?_⟩
  intro j hj
  cases j with
  | zero => exact hx
  | succ j => exact h.before j (Nat.lt_of_succ_lt_succ hj)

theorem StopsAfter.step (h : StopsAfter stop f x (k + 1)) : StopsAfter stop f (f x) k :=
  ⟨h.stops, fun j hj => h.before (j + 1) (Nat.succ_lt_succ hj)⟩

theorem loop_eq_some_iff [DecidablePred stop] :
    ∀ (fuel : ℕ) (x : σ), loop stop f fuel x = some y ↔
      ∃ k < fuel, StopsAfter stop f x k ∧ f^[k] x = y := by
  intro fuel
  induction fuel with
  | zero =>
      intro x
      refine iff_of_false (Option.some_ne_none y).symm ?_
      rintro ⟨k, hk, -⟩
      exact Nat.not_lt_zero k hk
  | succ fuel ih =>
      intro x
      rw [loop]
      by_cases hx : stop x
      · rw [if_pos hx]
        constructor
        · intro h
          cases h
          exact ⟨0, Nat.succ_pos fuel, ⟨hx, fun j hj => absurd hj (Nat.not_lt_zero j)⟩, rfl⟩
        · rintro ⟨k, -, hk, hy⟩
          cases k with
          | zero => exact congrArg some hy
          | succ k => exact absurd hx (hk.before 0 (Nat.succ_pos k))
      · rw [if_neg hx, ih]
        constructor
        · rintro ⟨k, hlt, hk, hy⟩
          exact ⟨k + 1, Nat.succ_lt_succ hlt, hk.of_step hx, hy⟩
        · rintro ⟨k, hlt, hk, hy⟩
          cases k with
          | zero => exact absurd hk.stops hx
          | succ k => exact ⟨k, Nat.lt_of_succ_lt_succ hlt, hk.step, hy⟩

theorem StopsAfter.unique {k' : ℕ} (h : StopsAfter stop f x k) (h' : StopsAfter stop f x k') :
    k = k' := by
  rcases Nat.lt_trichotomy k k' with hlt | heq | hgt
  · exact absurd h.stops (h'.before k hlt)
  · exact heq
  · exact absurd h'.stops (h.before k' hgt)

theorem stopsAfter_add_iff (hgo : ∀ j < m, ¬ stop (f^[j] x)) :
    StopsAfter stop f x (k + m) ↔ StopsAfter stop f (f^[m] x) k := by
  constructor
  · intro h
    refine ⟨?_, fun j hj => ?_⟩
    · rw [← Function.iterate_add_apply]
      exact h.stops
    · rw [← Function.iterate_add_apply]
      exact h.before (j + m) (by omega)
  · intro h
    refine ⟨?_, fun j hj => ?_⟩
    · rw [Function.iterate_add_apply]
      exact h.stops
    · by_cases hlt : j < m
      · exact hgo j hlt
      · have hsum : j = j - m + m := by omega
        rw [hsum, Function.iterate_add_apply]
        exact h.before (j - m) (by omega)

theorem exists_stopsAfter [DecidablePred stop] (h : stop (f^[k] x)) : ∃ j ≤ k, StopsAfter stop f x j := by
  have hex : ∃ j, stop (f^[j] x) := ⟨k, h⟩
  exact ⟨Nat.find hex, Nat.find_min' hex h, Nat.find_spec hex, fun j hj => Nat.find_min hex hj⟩

section Bounded

variable {stop : ℕ → Prop} {f : ℕ → ℕ} {x : ℕ}

theorem iterate_lt (hf : ∀ n < m, f n < m) (hx : x < m) (k : ℕ) : f^[k] x < m := by
  induction k with
  | zero => exact hx
  | succ k ih =>
      rw [Function.iterate_succ_apply']
      exact hf _ ih

theorem StopsAfter.iterate_ne (h : StopsAfter stop f x k) {i j : ℕ} (hij : i < j) (hj : j ≤ k) :
    f^[i] x ≠ f^[j] x := by
  intro heq
  have hlater : f^[k] x = f^[k - (j - i)] x := by
    have hk : k = k - j + j := by omega
    have hk' : k - (j - i) = k - j + i := by omega
    rw [hk', Function.iterate_add_apply, heq, ← Function.iterate_add_apply, ← hk]
  refine h.before (k - (j - i)) (by omega) ?_
  rw [← hlater]
  exact h.stops

theorem StopsAfter.lt (h : StopsAfter stop f x k) (hf : ∀ n < m, f n < m) (hx : x < m) :
    k < m := by
  have hinj : Function.Injective fun i : Fin (k + 1) => (⟨f^[i] x, iterate_lt hf hx i⟩ : Fin m) := by
    intro i j heq
    have hval : f^[i] x = f^[j] x := congrArg Fin.val heq
    rcases Nat.lt_trichotomy i j with hlt | hij | hgt
    · exact absurd hval (h.iterate_ne hlt (Nat.le_of_lt_succ j.isLt))
    · exact Fin.ext hij
    · exact absurd hval.symm (h.iterate_ne hgt (Nat.le_of_lt_succ i.isLt))
  have hcard := Fintype.card_le_of_injective _ hinj
  rw [Fintype.card_fin, Fintype.card_fin] at hcard
  exact hcard

theorem loop_eq_some_iff_of_lt [DecidablePred stop] (hf : ∀ n < m, f n < m) (hx : x < m) {y : ℕ} :
    loop stop f m x = some y ↔ ∃ k, StopsAfter stop f x k ∧ f^[k] x = y := by
  rw [loop_eq_some_iff]
  constructor
  · rintro ⟨k, -, hk⟩
    exact ⟨k, hk⟩
  · rintro ⟨k, hk, hy⟩
    exact ⟨k, hk.lt hf hx, hk, hy⟩

theorem isSome_loop_iff_of_lt [DecidablePred stop] (hf : ∀ n < m, f n < m) (hx : x < m) :
    (loop stop f m x).isSome = true ↔ ∃ k, stop (f^[k] x) := by
  rw [Option.isSome_iff_exists]
  constructor
  · rintro ⟨y, hy⟩
    obtain ⟨k, hk, -⟩ := (loop_eq_some_iff_of_lt hf hx).mp hy
    exact ⟨k, hk.stops⟩
  · rintro ⟨k, hk⟩
    obtain ⟨j, -, hj⟩ := exists_stopsAfter hk
    exact ⟨_, (loop_eq_some_iff_of_lt hf hx).mpr ⟨j, hj, rfl⟩⟩

end Bounded

end Loop
end LibHL
