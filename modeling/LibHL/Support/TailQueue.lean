import Mathlib.Data.List.Nodup
import Mathlib.Logic.Function.Basic
import Mathlib.Tactic.Common

/-!
# Tail queues

Queues whose elements carry their own links: a pointer to the next element, and
the address of the pointer that leads to the element, which lies either in the
queue head or in the element before.  The head keeps the address of the last
pointer of the queue.  Several heads share one pool of elements; nothing but the
caller keeps an element of one queue from being linked into another one.
-/

namespace LibHL

/-- The address of a pointer to an element: the one in a head, or the one in
another element. -/
inductive TailqRef (ι α : Type*) where
  | first (h : ι)
  | next (a : α)

/-- The links of an element. -/
structure TailqEntry (ι α : Type*) where
  next : Option α
  prev : Option (TailqRef ι α)

/-- Queue heads, and the links of the live elements. -/
structure Tailqs (ι α : Type*) where
  first : ι → Option α
  last : ι → Option (TailqRef ι α)
  entry : α → Option (TailqEntry ι α)

namespace Tailqs

variable {ι α : Type*} [DecidableEq ι] [DecidableEq α]

/-- Change the links of a live element. -/
def modify (q : Tailqs ι α) (a : α) (f : TailqEntry ι α → TailqEntry ι α) :
    Option (Tailqs ι α) :=
  (q.entry a).map fun e => { q with entry := Function.update q.entry a (some (f e)) }

/-- Write through the address of a pointer. -/
def store (q : Tailqs ι α) (r : TailqRef ι α) (v : Option α) : Option (Tailqs ι α) :=
  match r with
  | .first h => some { q with first := Function.update q.first h v }
  | .next a => q.modify a fun e => { e with next := v }

/-- Tell the element after a position, or the head if there is none, by which
pointer it is reached now. -/
def relink (q : Tailqs ι α) (h : ι) (next : Option α) (r : Option (TailqRef ι α)) :
    Option (Tailqs ι α) :=
  match next with
  | some n => q.modify n fun e => { e with prev := r }
  | none => some { q with last := Function.update q.last h r }

/-- `TAILQ_INSERT_AFTER`. -/
def insertAfter (q : Tailqs ι α) (h : ι) (listelm elm : α) : Option (Tailqs ι α) := do
  let le ← q.entry listelm
  let q ← q.modify elm fun e => { e with next := le.next }
  let q ← q.relink h le.next (some (.next elm))
  let q ← q.modify listelm fun e => { e with next := some elm }
  q.modify elm fun e => { e with prev := some (.next listelm) }

/-- `TAILQ_INSERT_TAIL`. -/
def insertTail (q : Tailqs ι α) (h : ι) (elm : α) : Option (Tailqs ι α) := do
  let last ← q.last h
  let q ← q.modify elm fun _ => { next := none, prev := some last }
  let q ← q.store last (some elm)
  some { q with last := Function.update q.last h (some (.next elm)) }

/-- `TAILQ_REMOVE`. -/
def remove (q : Tailqs ι α) (h : ι) (elm : α) : Option (Tailqs ι α) := do
  let e ← q.entry elm
  let q ← q.relink h e.next e.prev
  let r ← e.prev
  q.store r e.next

/-! ## Chains -/

variable {entry entry' : α → Option (TailqEntry ι α)} {q q' : Tailqs ι α} {h : ι}
  {a x : α} {l p s : List α} {r : TailqRef ι α} {t : Option α}

/-- The elements of the list are linked in order, from the pointer at `r` on to
the element `t`. -/
def Chain (entry : α → Option (TailqEntry ι α)) : TailqRef ι α → List α → Option α → Prop
  | _, [], _ => True
  | r, a :: s, t => entry a = some ⟨s.head?.or t, some r⟩ ∧ Chain entry (.next a) s t

/-- The address of the last pointer of a chain. -/
def endRef : TailqRef ι α → List α → TailqRef ι α
  | r, [] => r
  | _, a :: s => endRef (.next a) s

omit [DecidableEq ι] [DecidableEq α] in
theorem endRef_append (r : TailqRef ι α) (p s : List α) :
    endRef r (p ++ s) = endRef (endRef r p) s := by
  induction p generalizing r with
  | nil => rfl
  | cons a p ih => exact ih (.next a)

omit [DecidableEq ι] [DecidableEq α] in
theorem chain_append :
    Chain entry r (p ++ s) t ↔
      Chain entry r p (s.head?.or t) ∧ Chain entry (endRef r p) s t := by
  induction p generalizing r with
  | nil => simp [Chain, endRef]
  | cons a p ih =>
      have hhead : (p ++ s).head?.or t = p.head?.or (s.head?.or t) := by
        cases p with
        | nil => rfl
        | cons b p => rfl
      simp only [List.cons_append, Chain, ih, endRef, hhead, and_assoc]

omit [DecidableEq ι] [DecidableEq α] in
theorem Chain.congr (hc : Chain entry r l t) (heq : ∀ a ∈ l, entry' a = entry a) :
    Chain entry' r l t := by
  induction l generalizing r with
  | nil => trivial
  | cons a s ih =>
      refine ⟨?_, ih hc.2 fun b hb => heq b (List.mem_cons_of_mem a hb)⟩
      rw [heq a List.mem_cons_self]
      exact hc.1

/-- The queue of a head consists of the elements of the list, in order. -/
structure Holds (q : Tailqs ι α) (h : ι) (l : List α) : Prop where
  nodup : l.Nodup
  first : q.first h = l.head?
  last : q.last h = some (endRef (.first h) l)
  chain : Chain q.entry (.first h) l none

/-- Only the queue of head `h` and the elements that satisfy `changed` may differ. -/
structure Frame (h : ι) (changed : α → Prop) (q q' : Tailqs ι α) : Prop where
  first : ∀ h', h' ≠ h → q'.first h' = q.first h'
  last : ∀ h', h' ≠ h → q'.last h' = q.last h'
  entry : ∀ a, ¬ changed a → q'.entry a = q.entry a
  live : ∀ a, (q'.entry a).isSome ↔ (q.entry a).isSome

omit [DecidableEq ι] [DecidableEq α] in
theorem Holds.frame {changed : α → Prop} {h' : ι} (hq : Holds q h' l) (hne : h' ≠ h)
    (hframe : Frame h changed q q') (hl : ∀ a ∈ l, ¬ changed a) : Holds q' h' l where
  nodup := hq.nodup
  first := by rw [hframe.first h' hne, hq.first]
  last := by rw [hframe.last h' hne, hq.last]
  chain := hq.chain.congr fun a ha => hframe.entry a (hl a ha)

omit [DecidableEq ι] [DecidableEq α] in
theorem Holds.entry_eq (hq : Holds q h (p ++ a :: s)) :
    q.entry a = some ⟨s.head?, some (endRef (.first h) p)⟩ := by
  have hchain := (chain_append.mp hq.chain).2.1
  rwa [Option.or_none] at hchain

omit [DecidableEq ι] [DecidableEq α] in
theorem Holds.isSome_of_mem (hq : Holds q h l) (ha : a ∈ l) : (q.entry a).isSome := by
  obtain ⟨p, s, rfl⟩ := List.append_of_mem ha
  rw [hq.entry_eq]
  rfl

/-! ## The operations -/

omit [DecidableEq ι] in
theorem modify_spec {e : TailqEntry ι α} (ha : q.entry a = some e)
    (f : TailqEntry ι α → TailqEntry ι α) :
    ∃ q', q.modify a f = some q' ∧ q'.first = q.first ∧ q'.last = q.last ∧
      q'.entry a = some (f e) ∧ ∀ b, b ≠ a → q'.entry b = q.entry b := by
  refine ⟨{ q with entry := Function.update q.entry a (some (f e)) }, ?_, rfl, rfl, ?_, ?_⟩
  · rw [modify, ha, Option.map_some]
  · exact Function.update_self a _ _
  · intro b hb
    exact Function.update_of_ne hb _ _

theorem relink_spec (r : Option (TailqRef ι α)) {next : Option α}
    (hnext : ∀ n, next = some n → (q.entry n).isSome) :
    ∃ q', q.relink h next r = some q' ∧ q'.first = q.first ∧
      (∀ h', h' ≠ h → q'.last h' = q.last h') ∧
      q'.last h = (if next = none then r else q.last h) ∧
      (∀ b, next = some b → q'.entry b = (q.entry b).map fun e => { e with prev := r }) ∧
      ∀ b, next ≠ some b → q'.entry b = q.entry b := by
  cases next with
  | none =>
      refine ⟨{ q with last := Function.update q.last h r }, rfl, rfl, ?_, ?_, ?_, ?_⟩
      · intro h' hne
        exact Function.update_of_ne hne _ _
      · rw [if_pos rfl]
        exact Function.update_self h _ _
      · intro b hb
        cases hb
      · intro b _
        rfl
  | some n =>
      obtain ⟨e, he⟩ := Option.isSome_iff_exists.mp (hnext n rfl)
      obtain ⟨q', hq', hfirst, hlast, hself, hother⟩ :=
        modify_spec he fun e => { e with prev := r }
      refine ⟨q', hq', hfirst, ?_, ?_, ?_, ?_⟩
      · intro h' _
        rw [hlast]
      · rw [hlast, if_neg (Option.some_ne_none n)]
      · rintro b ⟨⟩
        rw [hself, he, Option.map_some]
      · intro b hb
        exact hother b fun heq => hb (congrArg some heq.symm)

omit [DecidableEq ι] [DecidableEq α] in
/-- The chain after a position, entered through another pointer. -/
theorem Chain.reenter {r' : TailqRef ι α} (hc : Chain entry r s none)
    (hhead : ∀ b, s.head? = some b → entry' b = (entry b).map fun e =>
      { e with prev := some r' })
    (hrest : ∀ b ∈ s.tail, entry' b = entry b) : Chain entry' r' s none := by
  cases s with
  | nil => trivial
  | cons b s =>
      refine ⟨?_, hc.2.congr hrest⟩
      rw [hhead b rfl, hc.1]
      rfl

theorem Holds.insertAfter {e : TailqEntry ι α} (hq : Holds q h (p ++ a :: s))
    (hx : x ∉ p ++ a :: s) (hxe : q.entry x = some e) :
    ∃ q', q.insertAfter h a x = some q' ∧ Holds q' h (p ++ a :: x :: s) ∧
      Frame h (fun b => b = x ∨ b ∈ p ++ a :: s) q q' := by
  have hae := hq.entry_eq
  obtain ⟨hpchain, -, hschain⟩ := chain_append.mp hq.chain
  have hnd := hq.nodup
  rw [List.nodup_append, List.nodup_cons] at hnd
  obtain ⟨-, ⟨has, hsnd⟩, hdisj⟩ := hnd
  rw [List.mem_append, List.mem_cons, not_or, not_or] at hx
  obtain ⟨hxp, hxa, hxs⟩ := hx
  have hslive : ∀ n, s.head? = some n → (q.entry n).isSome := fun n hn =>
    hq.isSome_of_mem (by simp [List.mem_of_mem_head? hn])
  have hhead : ∀ b, s.head? = some b → b ∈ s := fun b hb => List.mem_of_mem_head? hb
  obtain ⟨q₁, hq₁, hf₁, hl₁, hx₁, ho₁⟩ := modify_spec hxe fun e => { e with next := s.head? }
  have hlive₁ : ∀ n, s.head? = some n → (q₁.entry n).isSome := by
    intro n hn
    rw [ho₁ n (ne_of_mem_of_not_mem (hhead n hn) hxs)]
    exact hslive n hn
  obtain ⟨q₂, hq₂, hf₂, hl₂, hlh₂, hn₂, ho₂⟩ :=
    relink_spec (q := q₁) (h := h) (some (TailqRef.next x)) hlive₁
  have hx₂ : q₂.entry x = some { e with next := s.head? } := by
    rw [ho₂ x fun hsx => hxs (hhead x hsx), hx₁]
  have ha₂ : q₂.entry a = q.entry a := by
    rw [ho₂ a fun hsa => has (hhead a hsa), ho₁ a (Ne.symm hxa)]
  obtain ⟨q₃, hq₃, hf₃, hl₃, ha₃, ho₃⟩ :=
    modify_spec (ha₂.trans hae) fun e => { e with next := some x }
  obtain ⟨q₄, hq₄, hf₄, hl₄, hx₄, ho₄⟩ :=
    modify_spec ((ho₃ x hxa).trans hx₂) fun e => { e with prev := some (.next a) }
  have ha₄ : q₄.entry a = some ⟨some x, some (endRef (.first h) p)⟩ := by
    rw [ho₄ a (Ne.symm hxa), ha₃]
  have hs₄ : ∀ b, s.head? = some b → q₄.entry b = (q.entry b).map fun e =>
      { e with prev := some (.next x) } := by
    intro b hb
    have hbx : b ≠ x := ne_of_mem_of_not_mem (hhead b hb) hxs
    have hba : b ≠ a := ne_of_mem_of_not_mem (hhead b hb) has
    rw [ho₄ b hbx, ho₃ b hba, hn₂ b hb, ho₁ b hbx]
  have ho : ∀ b, b ≠ x → b ≠ a → s.head? ≠ some b → q₄.entry b = q.entry b := by
    intro b hbx hba hbs
    rw [ho₄ b hbx, ho₃ b hba, ho₂ b hbs, ho₁ b hbx]
  refine ⟨q₄, ?_, ⟨?_, ?_, ?_, ?_⟩, ⟨?_, ?_, ?_, ?_⟩⟩
  · simp only [Tailqs.insertAfter, hae, hq₁, hq₂, hq₃, hq₄, Option.bind_eq_bind,
      Option.bind_some]
  · have hperm : (p ++ a :: x :: s).Perm (x :: (p ++ a :: s)) := by
      have hmid : (p ++ [a] ++ x :: s).Perm (x :: (p ++ [a] ++ s)) := List.perm_middle
      simpa using hmid
    refine hperm.nodup_iff.mpr (List.nodup_cons.mpr ⟨?_, hq.nodup⟩)
    simp [hxp, hxa, hxs]
  · rw [hf₄, hf₃, hf₂, hf₁, hq.first]
    cases p with
    | nil => rfl
    | cons b p => rfl
  · rw [hl₄, hl₃, hlh₂, hl₁, hq.last, endRef_append, endRef_append]
    cases s with
    | nil => rfl
    | cons b s => rfl
  · refine chain_append.mpr ⟨hpchain.congr ?_, ?_, ?_, ?_⟩
    · intro b hb
      refine ho b (ne_of_mem_of_not_mem hb hxp) (hdisj b hb a List.mem_cons_self) ?_
      intro hbs
      exact hdisj b hb b (List.mem_cons_of_mem a (hhead b hbs)) rfl
    · rw [ha₄]
      rfl
    · rw [hx₄, Option.or_none]
    · refine hschain.reenter hs₄ ?_
      intro b hb
      have hbs := List.mem_of_mem_tail hb
      refine ho b (ne_of_mem_of_not_mem hbs hxs) (ne_of_mem_of_not_mem hbs has) ?_
      intro heq
      cases s with
      | nil => cases heq
      | cons d s =>
          cases heq
          exact (List.nodup_cons.mp hsnd).1 hb
  · intro h' _
    rw [hf₄, hf₃, hf₂, hf₁]
  · intro h' hne
    rw [hl₄, hl₃, hl₂ h' hne, hl₁]
  · intro b hb
    rw [List.mem_append, List.mem_cons, not_or, not_or, not_or] at hb
    exact ho b hb.1 hb.2.2.1 fun heq => hb.2.2.2 (hhead b heq)
  · intro b
    by_cases hbx : b = x
    · subst hbx
      rw [hx₄, hxe]
      rfl
    by_cases hba : b = a
    · subst hba
      rw [ha₄, hae]
      rfl
    by_cases hbs : s.head? = some b
    · rw [hs₄ b hbs, Option.isSome_map]
    · rw [ho b hbx hba hbs]

/-- Writing through the last pointer of a chain. -/
theorem store_endRef (hp : p.Nodup) (hfirst : q.first h = p.head?.or t)
    (hc : Chain q.entry (.first h) p t) (v : Option α) :
    ∃ q', q.store (endRef (.first h) p) v = some q' ∧ q'.last = q.last ∧
      q'.first h = p.head?.or v ∧ (∀ h', h' ≠ h → q'.first h' = q.first h') ∧
      Chain q'.entry (.first h) p v ∧ (∀ b, b ∉ p → q'.entry b = q.entry b) ∧
      ∀ b, (q'.entry b).isSome ↔ (q.entry b).isSome := by
  rcases List.eq_nil_or_concat p with rfl | ⟨p, y, rfl⟩
  · refine ⟨{ q with first := Function.update q.first h v }, rfl, rfl, ?_, ?_, trivial,
      fun _ _ => rfl, fun _ => Iff.rfl⟩
    · exact Function.update_self h _ _
    · intro h' hne
      exact Function.update_of_ne hne _ _
  · rw [List.concat_eq_append] at *
    obtain ⟨hpchain, hy, -⟩ := chain_append.mp hc
    obtain ⟨q', hq', hf, hl, hself, hother⟩ := modify_spec hy fun e => { e with next := v }
    have hyp : y ∉ p := by
      rw [List.nodup_append] at hp
      intro hmem
      exact hp.2.2 y hmem y List.mem_cons_self rfl
    refine ⟨q', ?_, hl, ?_, ?_, chain_append.mpr ⟨hpchain.congr ?_, hself, trivial⟩, ?_, ?_⟩
    · rw [endRef_append]
      exact hq'
    · rw [hf, hfirst]
      cases p with
      | nil => rfl
      | cons b p => rfl
    · intro h' _
      rw [hf]
    · intro b hb
      exact hother b (ne_of_mem_of_not_mem hb hyp)
    · intro b hb
      refine hother b fun heq => hb ?_
      simp [heq]
    · intro b
      by_cases hb : b = y
      · subst hb
        rw [hself, hy]
        rfl
      · rw [hother b hb]

/-- An element is appended to the queue. -/
theorem Holds.insertTail {e : TailqEntry ι α} (hq : Holds q h l) (hx : x ∉ l)
    (hxe : q.entry x = some e) :
    ∃ q', q.insertTail h x = some q' ∧ Holds q' h (l ++ [x]) ∧
      Frame h (fun b => b = x ∨ b ∈ l) q q' := by
  obtain ⟨q₁, hq₁, hf₁, hl₁, hx₁, ho₁⟩ :=
    modify_spec hxe fun _ => { next := none, prev := some (endRef (.first h) l) }
  have hchain₁ : Chain q₁.entry (.first h) l none :=
    hq.chain.congr fun b hb => ho₁ b (ne_of_mem_of_not_mem hb hx)
  have hfirst₁ : q₁.first h = l.head?.or none := by rw [hf₁, hq.first, Option.or_none]
  obtain ⟨q₂, hq₂, hl₂, hfh₂, hf₂, hchain₂, ho₂, hlive₂⟩ :=
    store_endRef hq.nodup hfirst₁ hchain₁ (some x)
  refine ⟨{ q₂ with last := Function.update q₂.last h (some (.next x)) }, ?_,
    ⟨?_, ?_, ?_, ?_⟩, ⟨?_, ?_, ?_, ?_⟩⟩
  · simp only [Tailqs.insertTail, hq.last, hq₁, hq₂, Option.bind_eq_bind, Option.bind_some]
  · rw [List.nodup_append]
    refine ⟨hq.nodup, List.nodup_singleton x, ?_⟩
    intro b hb d hd
    rw [List.mem_singleton.mp hd]
    exact ne_of_mem_of_not_mem hb hx
  · show q₂.first h = _
    rw [hfh₂]
    cases l with
    | nil => rfl
    | cons b l => rfl
  · show Function.update q₂.last h _ h = _
    rw [Function.update_self, endRef_append]
    rfl
  · refine chain_append.mpr ⟨hchain₂, ?_, trivial⟩
    show q₂.entry x = _
    rw [ho₂ x hx, hx₁]
    rfl
  · intro h' hne
    show q₂.first h' = _
    rw [hf₂ h' hne, hf₁]
  · intro h' hne
    show Function.update q₂.last h _ h' = _
    rw [Function.update_of_ne hne, hl₂, hl₁]
  · intro b hb
    rw [not_or] at hb
    show q₂.entry b = _
    rw [ho₂ b hb.2, ho₁ b hb.1]
  · intro b
    show (q₂.entry b).isSome ↔ _
    rw [hlive₂ b]
    by_cases hb : b = x
    · subst hb
      rw [hx₁, hxe]
      rfl
    · rw [ho₁ b hb]

/-- An element is removed from the queue. -/
theorem Holds.remove (hq : Holds q h (p ++ a :: s)) :
    ∃ q', q.remove h a = some q' ∧ Holds q' h (p ++ s) ∧
      Frame h (fun b => b ∈ p ++ a :: s) q q' := by
  have hae := hq.entry_eq
  obtain ⟨hpchain, -, hschain⟩ := chain_append.mp hq.chain
  have hnd := hq.nodup
  rw [List.nodup_append, List.nodup_cons] at hnd
  obtain ⟨hpnd, ⟨has, hsnd⟩, hdisj⟩ := hnd
  have hhead : ∀ b, s.head? = some b → b ∈ s := fun b hb => List.mem_of_mem_head? hb
  have hps : ∀ b ∈ p, s.head? ≠ some b := fun b hb hbs =>
    hdisj b hb b (List.mem_cons_of_mem a (hhead b hbs)) rfl
  have hsp : ∀ b ∈ s, b ∉ p := fun b hb hbp => hdisj b hbp b (List.mem_cons_of_mem a hb) rfl
  have hslive : ∀ n, s.head? = some n → (q.entry n).isSome := fun n hn =>
    hq.isSome_of_mem (by simp [hhead n hn])
  obtain ⟨q₁, hq₁, hf₁, hl₁, hlh₁, hn₁, ho₁⟩ :=
    relink_spec (q := q) (h := h) (some (endRef (TailqRef.first h) p)) hslive
  have hchain₁ : Chain q₁.entry (.first h) p (some a) :=
    hpchain.congr fun b hb => ho₁ b (hps b hb)
  have hfirst₁ : q₁.first h = p.head?.or (some a) := by
    rw [hf₁, hq.first]
    cases p with
    | nil => rfl
    | cons b p => rfl
  obtain ⟨q₂, hq₂, hl₂, hfh₂, hf₂, hchain₂, ho₂, hlive₂⟩ :=
    store_endRef hpnd hfirst₁ hchain₁ s.head?
  refine ⟨q₂, ?_, ⟨?_, ?_, ?_, ?_⟩, ⟨?_, ?_, ?_, ?_⟩⟩
  · simp only [Tailqs.remove, hae, hq₁, hq₂, Option.bind_eq_bind, Option.bind_some]
  · refine hq.nodup.sublist ?_
    exact List.Sublist.append_left (List.sublist_cons_self a s) p
  · rw [hfh₂]
    cases p with
    | nil => cases s with
      | nil => rfl
      | cons b s => rfl
    | cons b p => rfl
  · rw [hl₂, hlh₁, hq.last, endRef_append, endRef_append]
    cases s with
    | nil => rfl
    | cons b s => rfl
  · refine chain_append.mpr ⟨by rwa [Option.or_none], hschain.reenter ?_ ?_⟩
    · intro b hb
      rw [ho₂ b (hsp b (hhead b hb)), hn₁ b hb]
    · intro b hb
      have hbs := List.mem_of_mem_tail hb
      rw [ho₂ b (hsp b hbs), ho₁ b]
      intro heq
      cases s with
      | nil => cases heq
      | cons d s =>
          cases heq
          exact (List.nodup_cons.mp hsnd).1 hb
  · intro h' hne
    rw [hf₂ h' hne, hf₁]
  · intro h' hne
    rw [hl₂, hl₁ h' hne]
  · intro b hb
    rw [List.mem_append, List.mem_cons, not_or, not_or] at hb
    rw [ho₂ b hb.1, ho₁ b fun heq => hb.2.2 (hhead b heq)]
  · intro b
    rw [hlive₂ b]
    by_cases hbs : s.head? = some b
    · rw [hn₁ b hbs, Option.isSome_map]
    · rw [ho₁ b hbs]

end Tailqs
end LibHL
