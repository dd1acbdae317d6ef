import Mathlib.Tactic.Common
import Mathlib.Data.Nat.Notation

/-!
# Computations that ask for memory

Whether an allocation is granted is decided outside the program.  A computation is run
against a sequence of outcomes, one for each allocation that is still to come; it has no
result if it runs into undefined behaviour.  One thing can be said of it without looking at
its allocations one by one: what it comes to if all of them are granted.
-/

namespace LibHL

/-- Whether the allocations that are still to come are granted, in their order. -/
abbrev Grants := ℕ → Bool

/-- All allocations are granted. -/
def plenty : Grants := fun _ => true

/-- A computation that asks for memory. -/
abbrev Allocating (α : Type) := StateT Grants Option α

/-- Ask for memory. -/
def request : Allocating Bool := fun g => some (g 0, fun n => g (n + 1))

/-- Ask for memory if it is needed. -/
def requestIf (needed : Prop) [Decidable needed] : Allocating Bool :=
  if needed then request else pure true

namespace Allocating

variable {α β γ : Type} {x : Allocating α} {f : α → Allocating β} {o : Option α} {a : α} {b : β}
  {g g' : Grants}

/-! ## One step at a time -/

theorem bind_eq_some : (x >>= f) g = some (b, g') ↔
    ∃ a g₁, x g = some (a, g₁) ∧ f a g₁ = some (b, g') := by
  constructor
  · intro h
    obtain ⟨⟨a, g₁⟩, hx, hf⟩ := Option.bind_eq_some_iff.mp h
    exact ⟨a, g₁, hx, hf⟩
  · rintro ⟨a, g₁, hx, hf⟩
    exact Option.bind_eq_some_iff.mpr ⟨(a, g₁), hx, hf⟩

theorem bind_of_eq_some {a : α} {g₁ : Grants} (h : x g = some (a, g₁)) : (x >>= f) g = f a g₁ := by
  show Option.bind (x g) _ = _
  rw [h]
  rfl

theorem pure_eq_some {a' : α} : (pure a : Allocating α) g = some (a', g') ↔ a = a' ∧ g = g' := by
  constructor
  · rintro ⟨⟩
    exact ⟨rfl, rfl⟩
  · rintro ⟨rfl, rfl⟩
    rfl

theorem lift_apply (o : Option α) (g : Grants) :
    (liftM o : Allocating α) g = o.map fun a => (a, g) := by
  cases o <;> rfl

theorem lift_eq_some : (liftM o : Allocating α) g = some (a, g') ↔ o = some a ∧ g = g' := by
  rw [lift_apply, Option.map_eq_some_iff]
  constructor
  · rintro ⟨a, ha, ⟨⟩⟩
    exact ⟨ha, rfl⟩
  · rintro ⟨ha, rfl⟩
    exact ⟨a, ha, rfl⟩

theorem request_eq_some {ok : Bool} :
    request g = some (ok, g') ↔ g 0 = ok ∧ (fun n => g (n + 1)) = g' := by
  rw [request, Option.some.injEq, Prod.mk.injEq]

theorem requestIf_of_not {needed : Prop} [Decidable needed] (h : ¬ needed) :
    requestIf needed = pure true := if_neg h

theorem requestIf_pos {needed : Prop} [Decidable needed] (h : needed) :
    requestIf needed = request := if_pos h

theorem requestIf_refused {needed : Prop} [Decidable needed]
    (h : requestIf needed g = some (false, g')) : needed ∧ g 0 = false := by
  by_cases hneeded : needed
  · rw [requestIf_pos hneeded, request_eq_some] at h
    exact ⟨hneeded, h.1⟩
  · rw [requestIf_of_not hneeded] at h
    cases h

/-! ## If all is granted -/

/-- With all allocations granted, the computation comes to `o`. -/
def Granted (x : Allocating α) (o : Option α) : Prop := x plenty = o.map fun a => (a, plenty)

theorem granted_pure (a : α) : Granted (pure a) (some a) := rfl

theorem granted_lift (o : Option α) : Granted (liftM o) o := lift_apply o plenty

theorem granted_request : Granted request (some true) := rfl

theorem granted_requestIf (needed : Prop) [Decidable needed] :
    Granted (requestIf needed) (some true) := by
  unfold requestIf
  split
  · rfl
  · rfl

theorem Granted.bind_some {p : Option β} (hx : Granted x (some a)) (hf : Granted (f a) p) :
    Granted (x >>= f) p :=
  (bind_of_eq_some hx).trans hf

theorem Granted.bind_none (hx : Granted x none) : Granted (x >>= f) none := by
  show Option.bind (x plenty) _ = _
  rw [show x plenty = none from hx]
  rfl

theorem Granted.bind {p : α → Option β} (hx : Granted x o) (hf : ∀ a, Granted (f a) (p a)) :
    Granted (x >>= f) (o.bind p) := by
  cases o with
  | none => exact hx.bind_none
  | some a => exact hx.bind_some (hf a)

theorem Granted.of_request {x y : Allocating α} (hx : Granted x o) :
    Granted (request >>= fun ok => if ok = true then x else y) o := hx

theorem Granted.of_requestIf {needed : Prop} [Decidable needed] {x y : Allocating α}
    (hx : Granted x o) :
    Granted (requestIf needed >>= fun ok => if ok = true then x else y) o :=
  (granted_requestIf needed).bind_some hx

theorem Granted.ite {c : Prop} [Decidable c] {x y : Allocating α} {o p : Option α}
    (hx : Granted x o) (hy : Granted y p) : Granted (if c then x else y) (if c then o else p) := by
  split
  · exact hx
  · exact hy

theorem Granted.foldlM {f : β → α → Allocating β} {p : β → α → Option β}
    (h : ∀ b a, Granted (f b a) (p b a)) :
    ∀ (as : List α) (b : β), Granted (as.foldlM f b) (as.foldlM p b) := by
  intro as
  induction as with
  | nil => exact fun b => granted_pure b
  | cons a as ih =>
      intro b
      rw [List.foldlM_cons, List.foldlM_cons]
      exact (h b a).bind ih

end Allocating
end LibHL
