import Mathlib.Data.List.Infix
import Mathlib.Data.List.Perm.Subperm
import LibHL.Queue.Deque

/-!
# Pops at both ends

One thread pops at the left end and another one at the right end.  This module says
what every state of such a run keeps, and what each thread leaves alone for the other
one.

No link ever leads back over the chain that the queue had at the beginning, and a link
that is marked or null stays so.  A pop marks one link of an entry to claim it and
then the other one, so that its entry has two dead links when it is given up.
-/

namespace LibHL
namespace Queue

open RefCnt View

variable {V : Type}

/-- The chain of entries between the sentinels. -/
def chain (v : View V) (es : List Addr) : List Addr := v.head :: (es ++ [v.tail])

/-- `b` comes after `a` on the way that `d` leads. -/
def Ahead (l : List Addr) (d : Dir) (a b : Addr) : Prop :=
  a ∈ l ∧ b ∈ l ∧ match d with
    | .next => l.idxOf a < l.idxOf b
    | .prev => l.idxOf b < l.idxOf a

section Order

variable {v : View V} {es : List Addr} {d : Dir} {a b : Addr}

theorem Ahead.swap {l : List Addr} (h : Ahead l d a b) : Ahead l (back d) b a := by
  cases d with
  | next => exact ⟨h.2.1, h.1, h.2.2⟩
  | prev => exact ⟨h.2.1, h.1, h.2.2⟩

theorem Ahead.ne {l : List Addr} (h : Ahead l d a b) : a ≠ b := by
  rintro rfl
  cases d with
  | next => exact lt_irrefl _ h.2.2
  | prev => exact lt_irrefl _ h.2.2

theorem sentinel_mem_chain (d : Dir) : v.sentinel d ∈ chain v es := by
  cases d <;> simp [chain, sentinel]

theorem sentinel_ahead (hnodup : (chain v es).Nodup) (hb : b ∈ chain v es)
    (hne : b ≠ v.sentinel d) : Ahead (chain v es) d (v.sentinel d) b := by
  refine ⟨sentinel_mem_chain d, hb, ?_⟩
  cases d with
  | next =>
      have hne' : v.head ≠ b := Ne.symm hne
      simp only [chain, sentinel, List.idxOf_cons_self, List.idxOf_cons_ne _ hne']
      exact Nat.succ_pos _
  | prev =>
      have hmem : b ∈ v.head :: es := by
        have hb' := hb
        rw [chain, ← List.cons_append, List.mem_append, List.mem_singleton] at hb'
        exact hb'.resolve_right hne
      have htail : v.tail ∉ v.head :: es := by
        rw [chain, ← List.cons_append, List.nodup_append] at hnodup
        intro hm
        exact hnodup.2.2 _ hm _ (List.mem_singleton_self _) rfl
      simp only [chain, sentinel, ← List.cons_append, List.idxOf_append_of_mem hmem,
        List.idxOf_append_of_notMem htail]
      have hlt := List.idxOf_lt_length_of_mem hmem
      omega

theorem Ahead.ne_sentinel (hnodup : (chain v es).Nodup) (h : Ahead (chain v es) d a b) :
    b ≠ v.sentinel d := by
  rintro rfl
  have hahead := sentinel_ahead hnodup h.1 h.ne
  cases d with
  | next => exact lt_asymm h.2.2 hahead.2.2
  | prev => exact lt_asymm h.2.2 hahead.2.2

theorem mem_of_ne_sentinel (h : a ∈ chain v es) (h₁ : a ≠ v.sentinel d)
    (h₂ : a ≠ v.sentinel (back d)) : a ∈ es := by
  have hends : a ≠ v.head ∧ a ≠ v.tail := by
    cases d with
    | next => exact ⟨h₁, h₂⟩
    | prev => exact ⟨h₂, h₁⟩
  rw [chain, List.mem_cons, List.mem_append, List.mem_singleton] at h
  exact (h.resolve_left hends.1).resolve_right hends.2

end Order

/-- A link that no pop can mark for itself any more. -/
def Dead (q : Queue V) (a : Addr × Dir) : Prop :=
  ∀ r, q.links a = some r → r.mark = true ∨ r.node = none

/-- A link with a mark. -/
def Marked (q : Queue V) (a : Addr × Dir) : Prop := ∃ r, q.links a = some r ∧ r.mark = true

theorem Marked.dead {q : Queue V} {a : Addr × Dir} (h : Marked q a) : Dead q a := by
  obtain ⟨r, hr, hm⟩ := h
  intro r' hr'
  cases hr.symm.trans hr'
  exact Or.inl hm

/-- What holds while two threads pop from a queue that had the view `v` and the
entries `es`. -/
structure Inv (v : View V) (es : List Addr) (q : Queue V) : Prop where
  head : q.ext.head = v.head
  tail : q.ext.tail = v.tail
  entry : ∀ e ∈ chain v es, ∀ ent, q.ext.entries e = some ent → ent = ⟨v.node e, v.value e⟩
  node : ∀ e ∈ chain v es, ∀ nd, q.nodes (v.node e) = some nd → nd.ptr = e
  link : ∀ e d r m, q.links (e, d) = some r → r.node = some m →
    ∃ t, m = v.node t ∧ Ahead (chain v es) d e t
  claim_mem : ∀ d, ∀ e ∈ (q.ext.history d).claims, e ∈ es
  claims_nodup : ((q.ext.history .next).claims ++ (q.ext.history .prev).claims).Nodup
  claimed : ∀ d, ∀ e ∈ (q.ext.history d).claims,
    Marked q (e, d) ∨ Dead q (e, d) ∧ Dead q (e, back d)
  length : q.ext.length + (q.ext.history .next).decrements + (q.ext.history .prev).decrements =
    es.length
  decrements_le : ∀ d, (q.ext.history d).decrements ≤ (q.ext.history d).claims.length
  returned : ∀ d, (q.ext.history d).returned.map some <+:
    (q.ext.history d).claims.map v.value

/-- What the thread at the other end does to the queue. -/
def Leaves (d : Dir) (q q' : Queue V) : Prop :=
  q'.ext.history d = q.ext.history d ∧ ∀ a, Dead q a → Dead q' a

/-- A step of the reference counts: entries and their two links are left alone or go
away. -/
structure Quiet (q q' : Queue V) : Prop where
  head : q'.ext.head = q.ext.head
  tail : q'.ext.tail = q.ext.tail
  length : q'.ext.length = q.ext.length
  history : q'.ext.history = q.ext.history
  entry : ∀ e ent, q'.ext.entries e = some ent → q.ext.entries e = some ent
  node : ∀ m nd, q'.nodes m = some nd → ∃ nd₀, q.nodes m = some nd₀ ∧ nd₀.ptr = nd.ptr
  link : ∀ e, (∀ d, q'.links (e, d) = q.links (e, d)) ∨ ∀ d, q'.links (e, d) = none

theorem Quiet.refl (q : Queue V) : Quiet q q where
  head := rfl
  tail := rfl
  length := rfl
  history := rfl
  entry := fun _ _ h => h
  node := fun _ nd h => ⟨nd, h, rfl⟩
  link := fun _ => Or.inl fun _ => rfl

theorem Quiet.dead {q q' : Queue V} (h : Quiet q q') {a : Addr × Dir} (hd : Dead q a) :
    Dead q' a := by
  obtain ⟨e, d⟩ := a
  intro r hr
  rcases h.link e with heq | hnone
  · exact hd r ((heq d).symm.trans hr)
  · rw [hnone d] at hr
    cases hr

theorem Quiet.leaves {q q' : Queue V} (h : Quiet q q') (d : Dir) : Leaves d q q' :=
  ⟨congrFun h.history d, fun _ hd => h.dead hd⟩

section Inv

variable {v : View V} {es : List Addr} {q q' : Queue V}

theorem Inv.quiet (h : Inv v es q) (hq : Quiet q q') : Inv v es q' := by
  have hlink : ∀ e d r, q'.links (e, d) = some r → q.links (e, d) = some r := by
    intro e d r hr
    rcases hq.link e with heq | hnone
    · exact (heq d).symm.trans hr
    · rw [hnone d] at hr
      cases hr
  refine {
    head := hq.head.trans h.head, tail := hq.tail.trans h.tail, entry := ?_, node := ?_,
    link := ?_, claim_mem := ?_, claims_nodup := ?_, claimed := ?_, length := ?_,
    decrements_le := ?_, returned := ?_ }
  · intro e he ent hent
    exact h.entry e he ent (hq.entry e ent hent)
  · intro e he nd hnd
    obtain ⟨nd₀, hnd₀, hptr⟩ := hq.node _ nd hnd
    rw [← hptr]
    exact h.node e he nd₀ hnd₀
  · intro e d r m hr
    exact h.link e d r m (hlink e d r hr)
  · rw [hq.history]
    exact h.claim_mem
  · rw [hq.history]
    exact h.claims_nodup
  · rw [hq.history]
    intro d e he
    rcases hq.link e with heq | hnone
    · refine (h.claimed d e he).imp ?_ fun hd => ⟨hq.dead hd.1, hq.dead hd.2⟩
      rintro ⟨r, hr, hm⟩
      exact ⟨r, (heq d).trans hr, hm⟩
    · refine Or.inr ⟨?_, ?_⟩ <;>
      · intro r hr
        rw [hnone] at hr
        cases hr
  · rw [hq.length, hq.history]
    exact h.length
  · rw [hq.history]
    exact h.decrements_le
  · rw [hq.history]
    exact h.returned

/-- The state after a link was replaced. -/
abbrev relinked (q : Queue V) (a : Addr × Dir) (r : Ref) : Queue V :=
  { q with links := Function.update q.links a (some r) }

theorem dead_relinked {a : Addr × Dir} {r : Ref} (h : Dead q a → r.mark = true ∨ r.node = none)
    {b : Addr × Dir} (hb : Dead q b) : Dead (relinked q a r) b := by
  intro r' hr'
  by_cases hba : b = a
  · subst hba
    simp only [Function.update_self] at hr'
    cases hr'
    exact h hb
  · simp only [Function.update_of_ne hba] at hr'
    exact hb r' hr'

/-- A link may be replaced by one that leads on, if it does not come alive, and if it
keeps its mark where a pop has claimed the entry by it. -/
theorem Inv.relinked (h : Inv v es q) {e : Addr} {d : Dir} {r : Ref}
    (hahead : ∀ m, r.node = some m → ∃ t, m = v.node t ∧ Ahead (chain v es) d e t)
    (hdead : Dead q (e, d) → r.mark = true ∨ r.node = none)
    (hclaim : e ∈ (q.ext.history d).claims → r.mark = true ∨
      r.node = none ∧ Dead q (e, back d)) : Inv v es (relinked q (e, d) r) := by
  have hother : ∀ b, b ≠ (e, d) → (Queue.relinked q (e, d) r).links b = q.links b :=
    fun b hb => Function.update_of_ne hb _ _
  have hself : (Queue.relinked q (e, d) r).links (e, d) = some r := Function.update_self _ _ _
  refine { h with link := ?_, claimed := ?_ }
  · intro e' d' r' m hr' hm
    by_cases heq : (e', d') = (e, d)
    · cases heq
      cases hself.symm.trans hr'
      exact hahead m hm
    · exact h.link e' d' r' m ((hother _ heq).symm.trans hr') hm
  · intro d' e' he'
    by_cases heq : (e', d') = (e, d)
    · cases heq
      rcases hclaim he' with hm | ⟨hnone, hback⟩
      · exact Or.inl ⟨r, hself, hm⟩
      · refine Or.inr ⟨?_, dead_relinked hdead hback⟩
        intro r' hr'
        cases hself.symm.trans hr'
        exact Or.inr hnone
    · refine (h.claimed d' e' he').imp ?_ ?_
      · rintro ⟨r', hr', hm⟩
        exact ⟨r', (hother _ heq).trans hr', hm⟩
      · rintro ⟨h₁, h₂⟩
        exact ⟨dead_relinked hdead h₁, dead_relinked hdead h₂⟩

theorem Inv.dead_of_claimed (h : Inv v es q) {d : Dir} {e : Addr}
    (he : e ∈ (q.ext.history d).claims) : Dead q (e, d) :=
  (h.claimed d e he).elim Marked.dead fun hd => hd.1

/-- An entry with a live link and another one without a mark has not been claimed. -/
theorem Inv.not_claimed (h : Inv v es q) {d : Dir} {e : Addr} (hlive : ¬ Dead q (e, d))
    (hback : ∀ r, q.links (e, back d) = some r → r.mark = false) (d' : Dir) :
    e ∉ (q.ext.history d').claims := by
  intro he
  by_cases hd : d' = d
  · subst hd
    exact hlive (h.dead_of_claimed he)
  · have hd' : d' = back d := by cases d <;> cases d' <;> simp_all [back]
    subst hd'
    rcases h.claimed _ e he with ⟨r, hr, hm⟩ | ⟨-, hdead⟩
    · rw [hback r hr] at hm
      cases hm
    · rw [back_back] at hdead
      exact hlive hdead

@[simp] theorem record_self (d : Dir) (f : PopHistory V → PopHistory V) (data : QueueData V) :
    (record d f data).history d = f (data.history d) := by
  simp [record]

theorem record_of_ne {d d' : Dir} (hd : d' ≠ d) (f : PopHistory V → PopHistory V)
    (data : QueueData V) : (record d f data).history d' = data.history d' := by
  simp [record, hd]

theorem Inv.claim (h : Inv v es q) {d : Dir} {e : Addr} (he : e ∈ es) (hm : Marked q (e, d))
    (hnew : ∀ d', e ∉ (q.ext.history d').claims) :
    Inv v es { q with ext := record d (Queue.claimed e) q.ext } := by
  have hcases : ∀ d', d' = d ∧
      ((record d (Queue.claimed e) q.ext).history d').claims =
        (q.ext.history d').claims ++ [e] ∨
      d' ≠ d ∧ (record d (Queue.claimed e) q.ext).history d' = q.ext.history d' := by
    intro d'
    by_cases hd : d' = d
    · subst hd
      exact Or.inl ⟨rfl, by rw [record_self]; rfl⟩
    · exact Or.inr ⟨hd, record_of_ne hd _ _⟩
  have hdec : ∀ d', ((record d (Queue.claimed e) q.ext).history d').decrements =
      (q.ext.history d').decrements := by
    intro d'
    rcases hcases d' with ⟨rfl, -⟩ | ⟨-, hc⟩
    · rw [record_self]
      rfl
    · rw [hc]
  have hret : ∀ d', ((record d (Queue.claimed e) q.ext).history d').returned =
      (q.ext.history d').returned := by
    intro d'
    rcases hcases d' with ⟨rfl, -⟩ | ⟨-, hc⟩
    · rw [record_self]
      rfl
    · rw [hc]
  refine { h with
    claim_mem := ?_, claims_nodup := ?_, claimed := ?_, length := ?_, decrements_le := ?_,
    returned := ?_ }
  · intro d' e' he'
    rcases hcases d' with ⟨rfl, hc⟩ | ⟨-, hc⟩
    · rw [hc, List.mem_append, List.mem_singleton] at he'
      rcases he' with he' | rfl
      · exact h.claim_mem d' e' he'
      · exact he
    · rw [hc] at he'
      exact h.claim_mem d' e' he'
  · have hnodup := h.claims_nodup
    cases d with
    | next =>
        rw [record_self, record_of_ne (by simp)]
        show (((q.ext.history .next).claims ++ [e]) ++ (q.ext.history .prev).claims).Nodup
        rw [List.append_assoc, List.singleton_append]
        exact List.nodup_middle.mpr (List.nodup_cons.mpr ⟨by simp [hnew], hnodup⟩)
    | prev =>
        rw [record_self, record_of_ne (by simp)]
        show ((q.ext.history .next).claims ++ ((q.ext.history .prev).claims ++ [e])).Nodup
        rw [← List.append_assoc]
        exact List.nodup_append.mpr ⟨hnodup, List.nodup_singleton e, by
          rintro a ha b hb rfl
          rw [List.mem_singleton] at hb
          subst hb
          rcases List.mem_append.mp ha with ha | ha
          · exact hnew _ ha
          · exact hnew _ ha⟩
  · intro d' e' he'
    rcases hcases d' with ⟨rfl, hc⟩ | ⟨-, hc⟩
    · rw [hc, List.mem_append, List.mem_singleton] at he'
      rcases he' with he' | rfl
      · exact h.claimed d' e' he'
      · exact Or.inl hm
    · rw [hc] at he'
      exact h.claimed d' e' he'
  · rw [hdec, hdec]
    exact h.length
  · intro d'
    rw [hdec]
    refine (h.decrements_le d').trans ?_
    rcases hcases d' with ⟨rfl, hc⟩ | ⟨-, hc⟩
    · rw [hc, List.length_append]
      omega
    · rw [hc]
  · intro d'
    rw [hret]
    refine (h.returned d').trans ?_
    rcases hcases d' with ⟨rfl, hc⟩ | ⟨-, hc⟩
    · rw [hc, List.map_append]
      exact List.prefix_append _ _
    · rw [hc]

/-- A pop goes on, without a claim. -/
theorem Inv.record (h : Inv v es q) {d : Dir} {f : PopHistory V → PopHistory V}
    (hclaims : (f (q.ext.history d)).claims = (q.ext.history d).claims) {length : ℕ}
    (hlength : length + (f (q.ext.history d)).decrements =
      q.ext.length + (q.ext.history d).decrements)
    (hdec : (f (q.ext.history d)).decrements ≤ (q.ext.history d).claims.length)
    (hret : (f (q.ext.history d)).returned.map some <+:
      (q.ext.history d).claims.map v.value) :
    Inv v es { q with ext := Queue.record d f { q.ext with length := length } } := by
  have hcases : ∀ d', d' = d ∨ d' ≠ d ∧
      (Queue.record d f { q.ext with length := length }).history d' = q.ext.history d' := by
    intro d'
    by_cases hd : d' = d
    · exact Or.inl hd
    · exact Or.inr ⟨hd, record_of_ne hd _ _⟩
  have hsame : ∀ d', ((Queue.record d f { q.ext with length := length }).history d').claims =
      (q.ext.history d').claims := by
    intro d'
    rcases hcases d' with rfl | ⟨-, hc⟩
    · rw [record_self]
      exact hclaims
    · rw [hc]
  refine { h with
    claim_mem := ?_, claims_nodup := ?_, claimed := ?_, length := ?_, decrements_le := ?_,
    returned := ?_ }
  · intro d' e he
    rw [hsame] at he
    exact h.claim_mem d' e he
  · rw [hsame, hsame]
    exact h.claims_nodup
  · intro d' e he
    rw [hsame] at he
    exact h.claimed d' e he
  · have hold := h.length
    cases d with
    | next =>
        rw [record_self, record_of_ne (by simp)]
        show length + (f (q.ext.history .next)).decrements + (q.ext.history .prev).decrements = _
        omega
    | prev =>
        rw [record_self, record_of_ne (by simp)]
        show length + (q.ext.history .next).decrements + (f (q.ext.history .prev)).decrements = _
        omega
  · intro d'
    rw [hsame]
    rcases hcases d' with rfl | ⟨-, hc⟩
    · rw [record_self]
      exact hdec
    · rw [hc]
      exact h.decrements_le d'
  · intro d'
    rw [hsame]
    rcases hcases d' with rfl | ⟨-, hc⟩
    · rw [record_self]
      exact hret
    · rw [hc]
      exact h.returned d'

theorem Inv.claims_length (h : Inv v es q) :
    (q.ext.history .next).claims.length + (q.ext.history .prev).claims.length ≤ es.length := by
  rw [← List.length_append]
  refine (List.subperm_of_subset h.claims_nodup fun e he => ?_).length_le
  rcases List.mem_append.mp he with he | he
  · exact h.claim_mem _ e he
  · exact h.claim_mem _ e he

/-- While an entry is claimed that has not been counted, the length is not zero. -/
theorem Inv.length_pos (h : Inv v es q) {d : Dir}
    (hlt : (q.ext.history d).decrements < (q.ext.history d).claims.length) :
    0 < q.ext.length := by
  have hlength := h.length
  have hclaims := h.claims_length
  have hnext := h.decrements_le .next
  have hprev := h.decrements_le .prev
  cases d with
  | next => omega
  | prev => omega

end Inv

/-! ## The specification of a thread -/

/-- Whenever the step marks an entry for the thread, the other link of the entry is not
marked. -/
def ClaimsUnmarked (d : Dir) (q q' : Queue V) : Prop :=
  ∀ e ∈ (q'.ext.history d).claims.drop (q.ext.history d).claims.length,
    ∀ r ∈ q.links (e, back d), r.mark = false

instance (d : Dir) (q q' : Queue V) : Decidable (ClaimsUnmarked d q q') :=
  inferInstanceAs (Decidable (∀ e ∈ (q'.ext.history d).claims.drop _,
    ∀ r ∈ q.links (e, back d), r.mark = false))

/-- The specification of the thread that pops at the end that `d` leads away from. -/
def spec (v : View V) (es : List Addr) (d : Dir) : Prog.Spec (Queue V) where
  inv := Inv v es
  rely := Leaves d
  guar := Leaves (back d)
  cond := ClaimsUnmarked d
  rely_refl := fun _ => ⟨rfl, fun _ h => h⟩
  rely_trans := fun _ _ _ h₁ h₂ => ⟨h₂.1.trans h₁.1, fun a h => h₂.2 a (h₁.2 a h)⟩

/-- What a thread knows: its own history, and links that are dead. -/
def Knows (d : Dir) (h : PopHistory V) (dead : List (Addr × Dir)) (q : Queue V) : Prop :=
  q.ext.history d = h ∧ ∀ a ∈ dead, Dead q a

section Triples

open Prog

variable {v : View V} {es : List Addr} {d : Dir} {h : PopHistory V} {dead : List (Addr × Dir)}

theorem Knows.of_leaves {q q' : Queue V} (hk : Knows d h dead q) (hl : Leaves d q q') :
    Knows d h dead q' :=
  ⟨hl.1.trans hk.1, fun a ha => hl.2 a (hk.2 a ha)⟩

theorem knows_stable : Stable (spec v es d) (Knows d h dead) :=
  fun _ _ hrely _ hk => hk.of_leaves hrely

theorem quiet_triple {α : Type} {p : Prog (Queue V) α} (hp : Steps Quiet p) :
    Triple (spec v es d) (Knows d h dead) p (fun _ => Knows d h dead) :=
  hp.triple (fun _ _ hinv hq => ⟨hinv.quiet hq, hq.leaves (back d)⟩) knows_stable
    (fun _ _ hq hk => hk.of_leaves (hq.leaves d))

/-- A step of the reference counts and what is known of its result. -/
theorem quiet_atomic {α : Type} {f : Queue V → Option (Queue V × α)} {φ : α → Prop}
    (hf : ∀ q q' a, Inv v es q → f q = some (q', a) → Quiet q q' ∧ φ a) :
    Triple (spec v es d) (Knows d h dead) (Prog.atomic f)
      (fun a q => φ a ∧ Knows d h dead q) := by
  refine Triple.atomic knows_stable fun q q' a hinv hk hfq _ => ?_
  obtain ⟨hq, hφ⟩ := hf q q' a hinv hfq
  exact ⟨hinv.quiet hq, hq.leaves (back d), hφ, hk.of_leaves (hq.leaves d)⟩

end Triples
end Queue
end LibHL
