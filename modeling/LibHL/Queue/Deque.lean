import Mathlib.Data.List.Chain
import LibHL.Queue.Steps

/-!
# Pushes and pops of a single thread

Between operations the entries form a chain between the two sentinels.  A push and a
pop are followed step by step at the end they work on; the chain seen from the other
end is the reversed one.
-/

namespace LibHL
namespace Queue

open RefCnt View

variable {V : Type}

@[simp] theorem back_back (d : Dir) : back (back d) = d := by
  cases d <;> rfl

theorem back_ne (d : Dir) : back d ≠ d := by
  cases d <;> simp [back]

/-- The link from one entry to the next, in the given direction, and the one back. -/
def Linked (link : Addr × Dir → Link) (d : Dir) (a b : Addr) : Prop :=
  link (a, d) = linkTo b ∧ link (b, back d) = linkTo a

/-- The queue between operations, seen from the end that `d` leads away from: the
entries `es` with the values `vals`. -/
structure Rests (v : View V) (d : Dir) (es : List Addr) (vals : List V) : Prop where
  nodup : (v.sentinel d :: (es ++ [v.sentinel (back d)])).Nodup
  live : ∀ e, e ∈ v.live ↔ e ∈ v.sentinel d :: (es ++ [v.sentinel (back d)])
  chained : (v.sentinel d :: (es ++ [v.sentinel (back d)])).IsChain (Linked v.link d)
  outer : ∀ d', v.link (v.sentinel d', back d') = noLink
  count_sentinel : ∀ d', v.count (v.sentinel d') = 2
  count_entry : ∀ e ∈ es, v.count e = 3
  value : es.map v.value = vals.map some
  length : v.length = es.length

theorem Linked.swap {link : Addr × Dir → Link} {d : Dir} {a b : Addr} (h : Linked link d b a) :
    Linked link (back d) a b :=
  ⟨h.2, by rw [back_back]; exact h.1⟩

namespace Rests

variable {v : View V} {d : Dir} {es : List Addr} {vals : List V}

theorem reverse (h : Rests v d es vals) : Rests v (back d) es.reverse vals.reverse := by
  have hlist : v.sentinel (back d) :: (es.reverse ++ [v.sentinel (back (back d))]) =
      (v.sentinel d :: (es ++ [v.sentinel (back d)])).reverse := by
    simp
  refine {
    nodup := ?_, live := ?_, chained := ?_, outer := h.outer,
    count_sentinel := h.count_sentinel, count_entry := ?_, value := ?_, length := ?_ }
  · rw [hlist]
    exact List.nodup_reverse.mpr h.nodup
  · intro e
    rw [hlist, List.mem_reverse]
    exact h.live e
  · rw [hlist, List.isChain_reverse]
    exact h.chained.imp fun a b hab => hab.swap
  · intro e he
    exact h.count_entry e (List.mem_reverse.mp he)
  · rw [List.map_reverse, h.value, List.map_reverse]
  · rw [h.length, List.length_reverse]

theorem count_cases (h : Rests v d es vals) {e : Addr} (he : e ∈ v.live) :
    v.count e = 2 ∨ v.count e = 3 := by
  rw [h.live, List.mem_cons, List.mem_append, List.mem_singleton] at he
  rcases he with rfl | he | rfl
  · exact Or.inl (h.count_sentinel d)
  · exact Or.inr (h.count_entry e he)
  · exact Or.inl (h.count_sentinel (back d))

theorem exists_neighbour (es : List Addr) (t : Addr) : ∃ n rest, es ++ [t] = n :: rest := by
  cases es with
  | nil => exact ⟨t, [], rfl⟩
  | cons a es => exact ⟨a, es ++ [t], rfl⟩

/-- A chain is kept by a change of links that it does not use. -/
theorem chain_congr {link link' : Addr × Dir → Link} {n : Addr} {rest : List Addr}
    (h : (n :: rest).IsChain (Linked link d))
    (hd : ∀ x ∈ n :: rest, link' (x, d) = link (x, d))
    (hback : ∀ x ∈ rest, link' (x, back d) = link (x, back d)) :
    (n :: rest).IsChain (Linked link' d) := by
  refine h.imp_of_mem_tail_imp fun a b ha hb hab => ?_
  exact ⟨(hd a ha).trans hab.1, (hback b hb).trans hab.2⟩

theorem exists_next {link : Addr × Dir → Link} {l : List Addr} {t e : Addr}
    (h : (l ++ [t]).IsChain (Linked link d)) (he : e ∈ l) : ∃ b, Linked link d e b := by
  induction l with
  | nil => cases he
  | cons a l ih =>
      obtain ⟨n, rest, hrest⟩ := exists_neighbour l t
      rw [List.cons_append, hrest, List.isChain_cons_cons] at h
      rcases List.mem_cons.mp he with rfl | he
      · exact ⟨n, h.1⟩
      · exact ih (hrest ▸ h.2) he

theorem unmarked_along (h : Rests v d es vals) {e : Addr} (he : e ∈ v.live) :
    (v.link (e, d)).mark = false := by
  rw [h.live, ← List.cons_append, List.mem_append, List.mem_singleton] at he
  rcases he with he | rfl
  · obtain ⟨b, hb⟩ := exists_next h.chained he
    rw [hb.1]
    rfl
  · have houter := h.outer (back d)
    rw [back_back] at houter
    rw [houter]
    rfl

theorem unmarked (h : Rests v d es vals) {e : Addr} (he : e ∈ v.live) (d' : Dir) :
    (v.link (e, d')).mark = false := by
  by_cases hd : d' = d
  · exact hd ▸ h.unmarked_along he
  · have hback : d' = back d := by cases d <;> cases d' <;> simp_all [back]
    exact hback ▸ h.reverse.unmarked_along he

/-- The sentinels and their two links that lead out of the queue. -/
theorem outer_ne (h : Rests v d es vals) {n : Addr} {rest : List Addr}
    (hrest : es ++ [v.sentinel (back d)] = n :: rest) (d' : Dir) :
    (v.sentinel d', back d') ≠ (v.sentinel d, d) ∧ (v.sentinel d', back d') ≠ (n, back d) := by
  have hnodup := h.nodup
  rw [List.nodup_cons] at hnodup
  constructor
  · intro heq
    obtain ⟨hs, hd⟩ := Prod.mk.inj heq
    have hdd : d' = back d := by rw [← hd, back_back]
    rw [hdd] at hs
    exact hnodup.1 (hs ▸ by simp)
  · intro heq
    obtain ⟨hs, hd⟩ := Prod.mk.inj heq
    have hdd : d' = d := by rw [← back_back d', hd, back_back]
    rw [hdd] at hs
    exact hnodup.1 (hrest ▸ hs ▸ List.mem_cons_self)

/-- The queue after the first entry was taken out. -/
theorem remove {w : View V} {e n : Addr} {x : V} {rest : List Addr}
    (h : Rests v d (e :: es) (x :: vals)) (hrest : es ++ [v.sentinel (back d)] = n :: rest)
    (hlive : w.live = v.live \ {e}) (hsentinel : ∀ d', w.sentinel d' = v.sentinel d')
    (hvalue : w.value = v.value) (hlength : w.length = v.length - 1)
    (hcount : ∀ y, y ≠ e → w.count y = v.count y)
    (hfirst : Linked w.link d (v.sentinel d) n)
    (hlink : ∀ y d', y ≠ e → (y, d') ≠ (v.sentinel d, d) → (y, d') ≠ (n, back d) →
      w.link (y, d') = v.link (y, d')) : Rests w d es vals := by
  have hd : back d ≠ d := back_ne d
  have hnodup := h.nodup
  have hchain := h.chained
  simp only [List.cons_append, hrest, List.isChain_cons_cons] at hchain
  simp only [List.cons_append, hrest, List.nodup_cons, List.mem_cons, not_or] at hnodup
  obtain ⟨⟨hse, hsn, hsr⟩, ⟨hen, her⟩, hnr, -⟩ := hnodup
  have hmem : ∀ y, y ∈ es ++ [v.sentinel (back d)] → y ≠ e ∧ y ≠ v.sentinel d := by
    intro y hy
    rw [hrest, List.mem_cons] at hy
    rcases hy with rfl | hy
    · exact ⟨fun heq => hen heq.symm, fun heq => hsn heq.symm⟩
    · exact ⟨fun heq => her (heq ▸ hy), fun heq => hsr (heq ▸ hy)⟩
  have hsent : ∀ d', v.sentinel d' ≠ e := by
    intro d'
    by_cases hd' : d' = d
    · rw [hd']
      exact hse
    · have hback : d' = back d := by cases d <;> cases d' <;> simp_all [back]
      rw [hback]
      exact (hmem _ (by simp)).1
  refine {
    nodup := ?_, live := ?_, chained := ?_, outer := ?_, count_sentinel := ?_,
    count_entry := ?_, value := ?_, length := ?_ }
  · rw [hsentinel, hsentinel]
    exact h.nodup.sublist (List.Sublist.cons_cons _ (List.sublist_cons_self _ _))
  · intro y
    rw [hsentinel, hsentinel, hlive, Set.mem_sdiff, h.live, Set.mem_singleton_iff]
    simp only [List.cons_append, List.mem_cons]
    constructor
    · rintro ⟨rfl | rfl | hy, hne⟩
      · exact Or.inl rfl
      · exact absurd rfl hne
      · exact Or.inr hy
    · rintro (rfl | hy)
      · exact ⟨Or.inl rfl, hse⟩
      · exact ⟨Or.inr (Or.inr hy), (hmem y hy).1⟩
  · rw [hsentinel, hsentinel, hrest, List.isChain_cons_cons]
    refine ⟨hfirst, chain_congr hchain.2.2 ?_ ?_⟩
    · intro y hy
      obtain ⟨hye, hys⟩ := hmem y (hrest ▸ hy)
      exact hlink y d hye (by simp [hys]) (by simp [hd.symm])
    · intro y hy
      obtain ⟨hye, hys⟩ := hmem y (hrest ▸ List.mem_cons_of_mem n hy)
      have hyn : y ≠ n := fun heq => hnr (heq ▸ hy)
      exact hlink y (back d) hye (by simp [hd]) (by simp [hyn])
  · intro d'
    obtain ⟨hs, -⟩ := h.outer_ne (List.cons_append ..) d'
    rw [hsentinel, hlink _ _ (hsent d') hs, h.outer]
    intro heq
    obtain ⟨hs', hd'⟩ := Prod.mk.inj heq
    have hdd : d' = d := by rw [← back_back d', hd', back_back]
    exact hsn (hdd ▸ hs')
  · intro d'
    rw [hsentinel, hcount _ (hsent d'), h.count_sentinel]
  · intro y hy
    rw [hcount y (hmem y (List.mem_append_left _ hy)).1]
    exact h.count_entry y (List.mem_cons_of_mem e hy)
  · rw [hvalue]
    have hval := h.value
    simp only [List.map_cons, List.cons.injEq] at hval
    exact hval.2
  · rw [hlength, h.length, List.length_cons]
    rfl

/-- The queue after an entry was put in front. -/
theorem insert {w : View V} {e n : Addr} {x : V} {rest : List Addr}
    (h : Rests v d es vals) (hrest : es ++ [v.sentinel (back d)] = n :: rest)
    (he : e ∉ v.live) (hlive : w.live = Insert.insert e v.live)
    (hsentinel : ∀ d', w.sentinel d' = v.sentinel d')
    (hvalue : w.value = Function.update v.value e (some x)) (hlength : w.length = v.length + 1)
    (hcount : ∀ y, y ≠ e → w.count y = v.count y) (hce : w.count e = 3)
    (hfirst : Linked w.link d (v.sentinel d) e) (hsecond : Linked w.link d e n)
    (hlink : ∀ y d', y ≠ e → (y, d') ≠ (v.sentinel d, d) → (y, d') ≠ (n, back d) →
      w.link (y, d') = v.link (y, d')) : Rests w d (e :: es) (x :: vals) := by
  have hd : back d ≠ d := back_ne d
  have hnew : e ∉ v.sentinel d :: (es ++ [v.sentinel (back d)]) := fun hm => he ((h.live e).mpr hm)
  rw [List.mem_cons, not_or] at hnew
  have hnodup := h.nodup
  have hchain := h.chained
  rw [hrest, List.isChain_cons_cons] at hchain
  rw [List.nodup_cons] at hnodup
  have hmem : ∀ y, y ∈ es ++ [v.sentinel (back d)] → y ≠ e ∧ y ≠ v.sentinel d := by
    intro y hy
    exact ⟨fun heq => hnew.2 (heq ▸ hy), fun heq => hnodup.1 (heq ▸ hy)⟩
  have hsent : ∀ d', v.sentinel d' ≠ e := by
    intro d' heq
    have hs : v.sentinel d' ∈ v.sentinel d :: (es ++ [v.sentinel (back d)]) := by
      cases d <;> cases d' <;> simp [back]
    exact he (heq ▸ (h.live _).mpr hs)
  have hnr : n ∉ rest := by
    have hn := hnodup.2
    rw [hrest, List.nodup_cons] at hn
    exact hn.1
  refine {
    nodup := ?_, live := ?_, chained := ?_, outer := ?_, count_sentinel := ?_,
    count_entry := ?_, value := ?_, length := ?_ }
  · rw [hsentinel, hsentinel, List.cons_append, List.nodup_cons, List.nodup_cons]
    refine ⟨?_, hnew.2, hnodup.2⟩
    rw [List.mem_cons, not_or]
    exact ⟨fun heq => hnew.1 heq.symm, hnodup.1⟩
  · intro y
    rw [hsentinel, hsentinel, hlive, Set.mem_insert_iff, h.live]
    simp only [List.cons_append, List.mem_cons]
    exact or_left_comm
  · rw [hsentinel, hsentinel, List.cons_append, hrest, List.isChain_cons_cons,
      List.isChain_cons_cons]
    refine ⟨hfirst, hsecond, chain_congr hchain.2 ?_ ?_⟩
    · intro y hy
      obtain ⟨hye, hys⟩ := hmem y (hrest ▸ hy)
      exact hlink y d hye (by simp [hys]) (by simp [hd.symm])
    · intro y hy
      obtain ⟨hye, hys⟩ := hmem y (hrest ▸ List.mem_cons_of_mem n hy)
      have hyn : y ≠ n := fun heq => hnr (heq ▸ hy)
      exact hlink y (back d) hye (by simp [hd]) (by simp [hyn])
  · intro d'
    obtain ⟨hs, hn⟩ := h.outer_ne hrest d'
    rw [hsentinel, hlink _ _ (hsent d') hs hn, h.outer]
  · intro d'
    rw [hsentinel, hcount _ (hsent d'), h.count_sentinel]
  · intro y hy
    rcases List.mem_cons.mp hy with rfl | hy
    · exact hce
    · rw [hcount y (hmem y (List.mem_append_left _ hy)).1]
      exact h.count_entry y hy
  · rw [hvalue, List.map_cons, List.map_cons, Function.update_self, ← h.value]
    refine congrArg _ (List.map_congr_left fun y hy => ?_)
    exact Function.update_of_ne (hmem y (List.mem_append_left _ hy)).1 _ _
  · rw [hlength, h.length, List.length_cons]

end Rests

/-! ## Pushing -/

variable {bound : ℕ}

section Push

variable {v : View V} {d : Dir} {s n e : Addr}

/-- The view after `e` was linked between the sentinel `s` and its neighbour `n`. -/
def View.linkedBetween (v : View V) (d : Dir) (s n e : Addr) : View V :=
  { v with
    link := Function.update (Function.update (Function.update (Function.update v.link
      (e, back d) (linkTo s)) (e, d) (linkTo n)) (n, back d) (linkTo e)) (s, d) (linkTo e)
    count := Function.update v.count e (v.count e + 2) }

/-- The loop behind the sentinel succeeds in its first round. -/
theorem linkEnd_does (hb : 0 < bound) (hs : s ∈ v.live) (hn : n ∈ v.live) (he : e ∈ v.live)
    (hl : v.link (s, d) = linkTo n) (m : ℕ) :
    Does (linkEnd m d e s bound n) v n (v.setLink (s, d) (linkTo e)) := by
  obtain ⟨k, rfl⟩ := Nat.exists_eq_succ_of_ne_zero (Nat.ne_of_gt hb)
  rw [linkEnd]
  refine (readNode_does hn).bind ?_
  refine (readNode_does he).bind ?_
  refine (casLink_does (linkTo e) hs (by rintro t ⟨⟩; exact he) (by rw [hl]; rfl) rfl).bind ?_
  exact Does.pure _ n

/-- What a push does with a new entry. -/
theorem pushLoop_does (hb : 0 < bound) (hs : s ∈ v.live) (hn : n ∈ v.live) (he : e ∈ v.live)
    (hsn : s ≠ n) (hes : e ≠ s) (hen : e ≠ n) (hl : Linked v.link d s n)
    (hprev : v.link (e, back d) = noLink) (hnext : v.link (e, d) = noLink)
    (hcs : 1 < v.count s + 1) (hcn : 1 < v.count n + 1) (hcn' : 1 < v.count n + 1 + 1) :
    Does (pushLoop bound d e s bound) v () (v.linkedBetween d s n e) := by
  have hd : back d ≠ d := back_ne d
  obtain ⟨k, rfl⟩ := Nat.exists_eq_succ_of_ne_zero (Nat.ne_of_gt hb)
  rw [pushLoop]
  refine (derefLinkInternal_does true hs hn (by rw [hl.1]; rfl) (by rw [hl.1]; rfl)).bind ?_
  refine (getNodePtr_does (by exact hn)).bind ?_
  refine (readNode_does (by exact hs)).bind ?_
  refine (store_does hb (by exact he) (by exact hs) (by simp [hprev])).bind ?_
  refine (readNode_does (by exact hn)).bind ?_
  refine (store_does hb (by exact he) (by exact hn) (by simp [hnext, hd.symm])).bind ?_
  refine (readLink_does (by exact he) (back d)).bind ?_
  refine (readNode_does (by exact he)).bind ?_
  refine (casLink_does (linkTo e) (by exact hn) (by rintro t ⟨⟩; exact he) ?_ rfl).bind ?_
  · simp [hl.2, hd, hen.symm, View.ref, markOff, linkTo]
  rw [if_pos rfl]
  refine (readNode_does (by exact hs)).bind ?_
  refine (release_does (by exact hs) (by simp [hsn, hcs])).bind ?_
  refine (readNode_does (by exact he)).bind ?_
  refine (retain_does (by exact he)).bind ?_
  refine (linkEnd_does hb (by exact hs) (by exact hn) (by exact he) ?_ _).bind ?_
  · simp [hl.1, hsn, hes.symm]
  refine (readNode_does (by exact hn)).bind ?_
  refine (release_does (by exact hn) (by simp [hsn.symm, hen.symm, hcn'])).bind ?_
  refine (readNode_does (by exact he)).bind ?_
  refine (retain_does (by exact he)).bind ?_
  refine (readNode_does (by exact hn)).bind ?_
  refine (release_does (by exact hn) (by simp [hsn.symm, hen.symm, hcn])).of_eq ?_
  apply View.ext
  case count =>
    funext x
    simp only [linkedBetween, release_count, retain_count, setLink_count, Function.update_apply,
      hsn, hsn.symm, hes, hen, hen.symm, if_true, if_false]
    by_cases hxe : x = e
    · simp [hxe, hen, UInt32.add_assoc]
    · by_cases hxn : x = n
      · simp [hxn, hen.symm]
      · by_cases hxs : x = s
        · simp [hxs, hsn, hes.symm]
        · simp [hxe, hxn, hxs]
  case link =>
    funext a
    simp only [linkedBetween, retain_link, release_link, setLink_link, Function.update_apply]
  all_goals simp [linkedBetween]

/-- A push puts an entry in front. -/
theorem push_run {q : Queue V} {es : List Addr} {vals : List V} (hb : 0 < bound)
    (hq : Shows q v) (hr : Rests v d es vals) (x : V) :
    ∃ q' e v', (push bound d x).run q = some (q', ()) ∧ Shows q' v' ∧
      Rests v' d (e :: es) (x :: vals) := by
  have hd : back d ≠ d := back_ne d
  obtain ⟨q₁, e, m, hrun₁, hnew, -, hq₁⟩ := allocEntry_does (some x) q hq
  obtain ⟨n, rest, hrest⟩ := Rests.exists_neighbour es (v.sentinel (back d))
  have hs : v.sentinel d ∈ v.live := (hr.live _).mpr (by simp)
  have hn : n ∈ v.live := (hr.live _).mpr (by simp [hrest])
  have hsn : v.sentinel d ≠ n := by
    have hnodup := hr.nodup
    rw [List.nodup_cons, hrest, List.mem_cons, not_or] at hnodup
    exact hnodup.1.1
  have hes : e ≠ v.sentinel d := fun heq => hnew (heq ▸ hs)
  have hen : e ≠ n := fun heq => hnew (heq ▸ hn)
  have hl : Linked v.link d (v.sentinel d) n := by
    have hchain := hr.chained
    rw [hrest, List.isChain_cons_cons] at hchain
    exact hchain.1
  have hother : ∀ y d', y ≠ e → (v.create e m (some x)).link (y, d') = v.link (y, d') := by
    intro y d' hy
    simp [create, hy]
  have hself : ∀ d', (v.create e m (some x)).link (e, d') = noLink := by
    intro d'
    cases d' <;> simp [create]
  have hcount : ∀ y, y ≠ e → (v.create e m (some x)).count y = v.count y :=
    fun y hy => Function.update_of_ne hy _ _
  have hle : ∀ y, y ∈ v.live → 1 < v.count y + 1 ∧ 1 < v.count y + 1 + 1 := by
    intro y hy
    rcases hr.count_cases hy with hc | hc <;> rw [hc] <;> decide
  have hloop : Does (pushLoop bound d e (v.sentinel d) bound) (v.create e m (some x)) ()
      ((v.create e m (some x)).linkedBetween d (v.sentinel d) n e) := by
    refine pushLoop_does hb (Or.inr hs) (Or.inr hn) (Or.inl rfl) hsn hes hen ?_ (hself _)
      (hself _) ?_ ?_ ?_
    · exact ⟨(hother _ _ hes.symm).trans hl.1, (hother _ _ hen.symm).trans hl.2⟩
    · rw [hcount _ hes.symm]
      exact (hle _ hs).1
    · rw [hcount _ hen.symm]
      exact (hle _ hn).1
    · rw [hcount _ hen.symm]
      exact (hle _ hn).2
  have hsentinel : ∀ d', (v.create e m (some x)).sentinel d' = v.sentinel d' := by
    intro d'
    cases d' <;> rfl
  have hend := readEnd_does (v := v.create e m (some x)) d
  rw [hsentinel] at hend
  have hlinked : Does (do
      let sentinel ← readEnd d
      pushLoop bound d e sentinel bound
      incrementLength) (v.create e m (some x)) () _ := hend.bind (hloop.bind incrementLength_does)
  obtain ⟨q₂, hrun₂, hq₂⟩ := hlinked q₁ hq₁
  refine ⟨q₂, e, _, ?_, hq₂, ?_⟩
  · exact (Prog.run_bind_of_run hrun₁).trans hrun₂
  refine hr.insert hrest hnew rfl (fun d' => by cases d' <;> rfl) rfl rfl ?_ ?_ ?_ ?_ ?_
  · intro y hy
    simp only [linkedBetween, Function.update_of_ne hy]
    exact hcount y hy
  · simp [linkedBetween, create]
  · simp [Linked, linkedBetween, hes, hen, hd]
  · simp [Linked, linkedBetween, hes, hen, hd]
  · intro y d' hy hs' hn'
    simp only [linkedBetween, Function.update_of_ne hs', Function.update_of_ne hn']
    rw [Function.update_of_ne (by simp [hy]), Function.update_of_ne (by simp [hy])]
    exact hother y d' hy

end Push

/-! ## Popping -/

section Pop

variable {v : View V} {d : Dir} {s n e : Addr}

/-- The view after `e`, which was claimed, was taken out from between the sentinel `s`
and its neighbour `n`; its links still lead to them. -/
def View.unlinked (v : View V) (d : Dir) (s n e : Addr) : View V :=
  { v with
    link := Function.update (Function.update (Function.update v.link
      (e, back d) ⟨some s, true⟩) (n, back d) (linkTo s)) (s, d) (linkTo n)
    count := Function.update (Function.update (Function.update v.count
      e (v.count e - 3)) s (v.count s + 1)) n (v.count n + 1) }

/-- The loop that marks the other link of an entry. -/
def MarksRest (d : Dir) (markRest : Addr → ℕ → Prog (Queue V) Unit) : Prop :=
  ∀ (v : View V) (e t : Addr) (n : ℕ), 0 < n → e ∈ v.live → t ∈ v.live →
    v.link (e, back d) = linkTo t →
    Does (markRest e n) v () (v.setLink (e, back d) ⟨some t, true⟩)

theorem markPrev_marksRest : MarksRest (V := V) .next markPrev := by
  intro v e t n hn he ht hl
  obtain ⟨k, rfl⟩ := Nat.exists_eq_succ_of_ne_zero (Nat.ne_of_gt hn)
  rw [markPrev]
  refine (readLink_does he .prev).bind ?_
  have hne : v.ref (v.link (e, .prev)) ≠ null := by
    rw [show v.link (e, .prev) = linkTo t from hl]
    simp [View.ref, linkTo, null]
  rw [if_neg hne]
  refine (casLink_does ⟨some t, true⟩ he (by rintro t' ⟨⟩; exact ht) rfl ?_).bind
    (Does.pure _ ())
  rw [show v.link (e, .prev) = linkTo t from hl]
  rfl

theorem markNext_marksRest : MarksRest (V := V) .prev markNext := by
  intro v e t n hn he ht hl
  obtain ⟨k, rfl⟩ := Nat.exists_eq_succ_of_ne_zero (Nat.ne_of_gt hn)
  rw [markNext]
  refine (readLink_does he .next).bind ?_
  refine (casLink_does ⟨some t, true⟩ he (by rintro t' ⟨⟩; exact ht) rfl ?_).bind
    (Does.pure _ ())
  rw [show v.link (e, .next) = linkTo t from hl]
  rfl

/-- The loop past the entry succeeds in its first round. -/
theorem bypass_does (hb : 0 < bound) (hs : s ∈ v.live) (hn : n ∈ v.live) (he : e ∈ v.live)
    (hl : (v.link (e, d)).target = some n) (hback : v.link (n, back d) = linkTo e) (m : ℕ) :
    Does (bypass m d e s bound none) v n
      ((v.retain n).setLink (n, back d) (linkTo s)) := by
  obtain ⟨k, rfl⟩ := Nat.exists_eq_succ_of_ne_zero (Nat.ne_of_gt hb)
  unfold bypass
  refine (derefLinkInternal_does false he hn hl (by simp)).bind ?_
  refine (getNodePtr_does (by exact hn)).bind ?_
  refine (readNode_does (by exact he)).bind ?_
  refine (readNode_does (by exact hs)).bind ?_
  refine (casLink_does (linkTo s) (by exact hn) (by rintro t ⟨⟩; exact hs) ?_ rfl).bind ?_
  · simp [hback, View.ref, linkTo, refTo]
  exact Does.pure _ n

/-- What a pop does with an entry it has claimed. -/
theorem unlink_does {markRest : Addr → ℕ → Prog (Queue V) Unit} (hmark : MarksRest d markRest)
    (hb : 0 < bound) (hs : s ∈ v.live) (hn : n ∈ v.live) (he : e ∈ v.live)
    (hsn : s ≠ n) (hes : e ≠ s) (hen : e ≠ n) (hlink : v.link (e, d) = ⟨some n, true⟩)
    (hprev : v.link (e, back d) = linkTo s) (hfirst : v.link (s, d) = linkTo e)
    (hback : v.link (n, back d) = linkTo e) (hce : v.count e = 4) (hcn : 1 < v.count n + 1 + 1) :
    Does (unlink bound d markRest e s) v (v.value e) (v.unlinked d s n e) := by
  have hd : back d ≠ d := back_ne d
  rw [unlink]
  refine (hmark v e s bound hb he hs hprev).bind ?_
  refine (bypass_does hb (by exact hs) (by exact hn) (by exact he) ?_ ?_ _).bind ?_
  · simp [hd.symm, hlink]
  · simp [hback, hen.symm]
  refine (readNode_does (by exact he)).bind ?_
  refine (release_does (by exact he) (by simp [hen, hce])).bind ?_
  refine (readNode_does (by exact hs)).bind ?_
  refine (retain_does (by exact hs)).bind ?_
  refine (readNode_does (by exact he)).bind ?_
  refine (readNode_does (by exact hn)).bind ?_
  refine (casLink_does (linkTo n) (by exact hs) (by rintro t ⟨⟩; exact hn) ?_ rfl).bind ?_
  · simp [hfirst, hsn, hes.symm, View.ref, linkTo, refTo]
  rw [if_pos rfl]
  refine (readNode_does (by exact he)).bind ?_
  refine (release_does (by exact he) (by simp [hen, hes, hce])).bind ?_
  refine (readNode_does (by exact hn)).bind ?_
  refine (retain_does (by exact hn)).bind ?_
  refine (readNode_does (by exact hn)).bind ?_
  refine (release_does (by exact hn) (by simp [hsn.symm, hen.symm, hcn])).bind ?_
  refine (readValue_does (by exact he)).bind ?_
  refine (readNode_does (by exact he)).bind ?_
  refine (release_does (by exact he) (by simp [hen, hes, hce])).bind ?_
  refine (Does.pure _ _).of_eq ?_
  apply View.ext
  case count =>
    funext x
    simp only [unlinked, release_count, retain_count, setLink_count, Function.update_apply,
      hsn, hsn.symm, hes, hen, hen.symm, if_true, if_false]
    by_cases hxe : x = e
    · simp [hxe, hen, hes, hce]
    · by_cases hxn : x = n
      · simp [hxn, hen.symm]
      · by_cases hxs : x = s
        · simp [hxs, hsn, hes.symm]
        · simp [hxe, hxn, hxs]
  case link =>
    funext a
    simp only [unlinked, retain_link, release_link, setLink_link, Function.update_apply]
  all_goals simp [unlinked]

/-- A pop takes the entry next to the sentinel. -/
theorem popLoop_does {markRest : Addr → ℕ → Prog (Queue V) Unit} (hmark : MarksRest d markRest)
    (hb : 0 < bound) (hs : s ∈ v.live) (hn : n ∈ v.live) (he : e ∈ v.live)
    (hsn : s ≠ n) (hes : e ≠ s) (hen : e ≠ n) (hse : Linked v.link d s e)
    (hne : Linked v.link d e n) (hend : e ≠ v.sentinel (back d)) (hce : v.count e = 3)
    (hcn : 1 < v.count n + 1 + 1) :
    Does (popLoop bound d markRest s bound) v (some (e, v.value e))
      (((v.retain e).setLink (e, d) ⟨some n, true⟩).unlinked d s n e) := by
  have hd : back d ≠ d := back_ne d
  obtain ⟨k, rfl⟩ := Nat.exists_eq_succ_of_ne_zero (Nat.ne_of_gt hb)
  rw [popLoop]
  refine (derefLinkInternal_does true hs he (by rw [hse.1]; rfl) (by rw [hse.1]; rfl)).bind ?_
  refine (getNodePtr_does (by exact he)).bind ?_
  refine (readEnd_does _).bind ?_
  rw [if_neg (by exact hend)]
  -- the entry is still the first one, and it leads on
  refine (readLink_does (by exact he) (back d)).bind ?_
  refine (readNode_does (by exact hs)).bind ?_
  rw [if_neg (by simp [hse.2, View.ref, linkTo, refTo])]
  refine (readLink_does (by exact he) d).bind ?_
  rw [if_neg (by simp [hne.1, View.ref, linkTo])]
  have hlink : (v.retain e).link (e, d) = linkTo n := hne.1
  rw [hlink]
  refine (claim_does (by exact he) (by exact hn) hlink).bind ?_
  rw [if_pos rfl]
  refine (unlink_does hmark hb (by exact hs) (by exact hn) (by exact he) hsn hes hen ?_ ?_ ?_
    ?_ ?_ ?_).bind (Does.pure _ _)
  · simp
  · simp [hd, hse.2]
  · simp [hes.symm, hse.1]
  · simp [hen.symm, hne.2]
  · simp [hce]
  · simpa [hen.symm] using hcn

/-- The view after `e`, with the neighbours `a` and `b`, gave up its links and its last
reference. -/
def View.destroyed (v : View V) (e a b : Addr) : View V :=
  { v with
    live := v.live \ {e}
    count := Function.update (Function.update v.count a (v.count a - 1)) b (v.count b - 1)
    link := Function.update (Function.update v.link (e, .next) noLink) (e, .prev) noLink
    terminated := v.terminated ++ [e] }

/-- The end of a pop: the entry gives up its links and its last reference. -/
theorem destroy_does {α : Type} (r : α) {a b : Addr} (hb : 2 ^ 9 + 2 ≤ bound) (he : e ∈ v.live)
    (ha : a ∈ v.live) (hb' : b ∈ v.live) (hab : a ≠ b) (hea : e ≠ a) (heb : e ≠ b)
    (hnext : (v.link (e, .next)).target = some a) (hprev : (v.link (e, .prev)).target = some b)
    (hca : 1 < v.count a) (hcb : 1 < v.count b) (hce : v.count e = 1) :
    Does (do
        store bound (e, .next) none
        store bound (e, .prev) none
        Queue.release bound (← readNode e)
        pure r) v r (v.destroyed e a b) := by
  have hpos : 0 < bound := by omega
  refine (clear_does hpos he ha hnext hca).bind ?_
  refine (clear_does hpos (by exact he) (by exact hb') (t := b) ?_ ?_).bind ?_
  · simp [hprev]
  · simp [hab.symm, hcb]
  refine (readNode_does (by exact he)).bind ?_
  refine (release_last_does hb (by exact he) ?_ ?_).bind ?_
  · simp [hea, heb, hce]
  · intro d
    cases d <;> simp
  refine (Does.pure _ r).of_eq ?_
  apply View.ext
  case count =>
    funext x
    simp only [View.drop, destroyed, release_count, setLink_count, Function.update_apply,
      hab.symm, if_false]
  case link =>
    funext x
    simp only [View.drop, destroyed, release_link, setLink_link, Function.update_apply]
  all_goals simp [View.drop, destroyed]

theorem destroyed_comm {a b : Addr} (hab : a ≠ b) : v.destroyed e a b = v.destroyed e b a := by
  simp only [destroyed, Function.update_comm hab]

/-- The same, seen from the end that the pop works on. -/
theorem destroy_does_from {α : Type} (r : α) (hb : 2 ^ 9 + 2 ≤ bound) (he : e ∈ v.live)
    (hn : n ∈ v.live) (hs : s ∈ v.live) (hsn : s ≠ n) (hes : e ≠ s) (hen : e ≠ n)
    (hlink : (v.link (e, d)).target = some n) (hback : (v.link (e, back d)).target = some s)
    (hcn : 1 < v.count n) (hcs : 1 < v.count s) (hce : v.count e = 1) :
    Does (do
        store bound (e, .next) none
        store bound (e, .prev) none
        Queue.release bound (← readNode e)
        pure r) v r (v.destroyed e n s) := by
  cases d with
  | next => exact destroy_does r hb he hn hs hsn.symm hen hes hlink hback hcn hcs hce
  | prev =>
      rw [destroyed_comm hsn.symm]
      exact destroy_does r hb he hs hn hsn hes hen hback hlink hcs hcn hce

/-- A pop from a queue that is not empty. -/
theorem pop_does {markRest : Addr → ℕ → Prog (Queue V) Unit} (hmark : MarksRest d markRest)
    {es : List Addr} {vals : List V} {x : V} (hb : 2 ^ 9 + 2 ≤ bound)
    (hr : Rests v d (e :: es) (x :: vals)) :
    ∃ v', Does (pop bound d markRest) v (some x) v' ∧ Rests v' d es vals := by
  have hpos : 0 < bound := by omega
  have hd : back d ≠ d := back_ne d
  obtain ⟨n, rest, hrest⟩ := Rests.exists_neighbour es (v.sentinel (back d))
  have hchain := hr.chained
  have hnodup := hr.nodup
  simp only [List.cons_append, hrest, List.isChain_cons_cons] at hchain
  simp only [List.cons_append, hrest, List.nodup_cons, List.mem_cons, not_or] at hnodup
  obtain ⟨⟨hse, hsn, -⟩, ⟨hen, her⟩, -⟩ := hnodup
  have hs : v.sentinel d ∈ v.live := (hr.live _).mpr (by simp)
  have he : e ∈ v.live := (hr.live _).mpr (by simp)
  have hn : n ∈ v.live := (hr.live _).mpr (by simp [hrest])
  have hend : e ≠ v.sentinel (back d) := by
    intro heq
    have hmem : v.sentinel (back d) ∈ n :: rest := by
      rw [← hrest]
      simp
    rcases List.mem_cons.mp (heq ▸ hmem) with h | h
    · exact hen h
    · exact her h
  have hce : v.count e = 3 := hr.count_entry e List.mem_cons_self
  have hcs : v.count (v.sentinel d) = 2 := hr.count_sentinel d
  have hcn := hr.count_cases hn
  have hvalue : v.value e = some x := by
    have hval := hr.value
    simp only [List.map_cons, List.cons.injEq] at hval
    exact hval.1
  have hloop := popLoop_does hmark hpos hs hn he hsn (Ne.symm hse) hen hchain.1 hchain.2.1 hend
    hce (by rcases hcn with hc | hc <;> rw [hc] <;> decide)
  have hlen : v.length ≠ 0 := by
    rw [hr.length]
    exact Nat.succ_ne_zero _
  have hcn' : 1 < v.count n + 1 := by rcases hcn with hc | hc <;> rw [hc] <;> decide
  set v₁ := ((v.retain e).setLink (e, d) ⟨some n, true⟩).unlinked d (v.sentinel d) n e with hv₁
  have hlink₁ : v₁.link (e, d) = ⟨some n, true⟩ ∧
      v₁.link (e, back d) = ⟨some (v.sentinel d), true⟩ := by
    simp [hv₁, unlinked, hen, Ne.symm hse, hd.symm]
  have hcount₁ : v₁.count n = v.count n + 1 ∧ v₁.count (v.sentinel d) = 3 ∧ v₁.count e = 1 := by
    simp [hv₁, unlinked, hen, hsn, hse, Ne.symm hen, Ne.symm hse, hcs, hce]
  have hfinish : ∀ w, Does (do
        decrementLength d
        store bound (e, .next) none
        store bound (e, .prev) none
        Queue.release bound (← readNode e)
        pure (some x)) v₁ (some x) w → Does (pop bound d markRest) v (some x) w := by
    intro w hw
    refine (readEnd_does d).bind (hloop.bind ?_)
    rw [hvalue]
    exact hw
  refine ⟨_, hfinish _ ((decrementLength_does d (by exact hlen)).bind (destroy_does_from (d := d)
    _ hb (by exact he) (by exact hn) (by exact hs) hsn (Ne.symm hse) hen ?_ ?_ ?_ ?_ ?_)), ?_⟩
  · rw [hlink₁.1]
  · rw [hlink₁.2]
  · rw [hcount₁.1]
    exact hcn'
  · rw [hcount₁.2.1]
    decide
  · exact hcount₁.2.2
  refine hr.remove hrest rfl (fun d' => by cases d' <;> rfl) rfl rfl ?_ ?_ ?_
  · intro y hy
    by_cases hys : y = v.sentinel d
    · simp [destroyed, hv₁, unlinked, hys, hsn, hse]
    · by_cases hyn : y = n
      · simp [destroyed, hv₁, unlinked, hyn, Ne.symm hsn, Ne.symm hen]
      · simp [destroyed, hv₁, unlinked, hys, hyn, hy]
  · simp [Linked, destroyed, hv₁, unlinked, hse, Ne.symm hen, hsn, hd]
  · intro y d' hy hs' hn'
    simp [destroyed, hv₁, unlinked, hy, hs', hn']

theorem pop_empty_does {markRest : Addr → ℕ → Prog (Queue V) Unit} (hb : 0 < bound)
    (hr : Rests v d [] []) : Does (pop bound d markRest) v none v := by
  obtain ⟨k, rfl⟩ := Nat.exists_eq_succ_of_ne_zero (Nat.ne_of_gt hb)
  have hs : v.sentinel d ∈ v.live := (hr.live _).mpr (by simp)
  have ht : v.sentinel (back d) ∈ v.live := (hr.live _).mpr (by simp)
  have hl : v.link (v.sentinel d, d) = linkTo (v.sentinel (back d)) := by
    have hchain := hr.chained
    simp only [List.nil_append, List.isChain_cons_cons] at hchain
    exact hchain.1.1
  rw [pop]
  refine (readEnd_does d).bind ?_
  have hloop : Does (popLoop k.succ d markRest (v.sentinel d) k.succ) v none v := by
    rw [popLoop]
    refine (derefLinkInternal_does true hs ht (by rw [hl]; rfl) (by rw [hl]; rfl)).bind ?_
    refine (getNodePtr_does (by exact ht)).bind ?_
    refine (readEnd_does _).bind ?_
    rw [if_pos (by rfl)]
    refine (release_does (by exact ht) ?_).bind ?_
    · simp [hr.count_sentinel]
    refine (Does.pure _ _).of_eq ?_
    apply View.ext
    case count =>
      funext x
      by_cases hx : x = v.sentinel (back d)
      · simp [hx]
      · simp [hx]
    all_goals simp
  exact hloop.bind (Does.pure _ _)

end Pop

end Queue
end LibHL
