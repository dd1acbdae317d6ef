import LibHL.Support.PointerTree

/-!
# The places of a tree, one after the other

A traversal comes to the nodes of a tree in preorder or in order.  What it meets there is
asked about until an answer is refused: this is a fold over the list of the places that may
end early, and it splits as the list does.
-/

namespace LibHL

/-! ## Asking until an answer is refused -/

/-- What was asked, with the answers; the state after it; and the last answer, if it was
refused. -/
structure Asked (α β σ : Type*) where
  made : List (α × β)
  user : σ
  refused : Option (α × β)

namespace Asked

variable {α β γ σ : Type*}

/-- Go on asking unless an answer was refused. -/
def andThen (r : Asked α β σ) (next : σ → Asked α β σ) : Asked α β σ :=
  match r.refused with
  | none => ⟨r.made ++ (next r.user).made, (next r.user).user, (next r.user).refused⟩
  | some c => ⟨r.made, r.user, some c⟩

/-- Rename what was asked about. -/
def rename (g : α → γ) (r : Asked α β σ) : Asked γ β σ :=
  ⟨r.made.map (Prod.map g id), r.user, r.refused.map (Prod.map g id)⟩

variable {r : Asked α β σ} {next : σ → Asked α β σ} {c : α × β} {g : α → γ}

theorem andThen_of_none (h : r.refused = none) : r.andThen next =
    ⟨r.made ++ (next r.user).made, (next r.user).user, (next r.user).refused⟩ := by
  rw [andThen, h]

theorem andThen_of_some (h : r.refused = some c) : r.andThen next = r := by
  rw [andThen, h]
  exact congrArg (Asked.mk r.made r.user) h.symm

theorem refused_andThen_eq_none : (r.andThen next).refused = none ↔
    r.refused = none ∧ (next r.user).refused = none := by
  cases h : r.refused with
  | none =>
      rw [andThen_of_none h]
      exact (and_iff_right rfl).symm
  | some c =>
      rw [andThen_of_some h, h]
      exact iff_of_false (Option.some_ne_none c) fun hand => Option.some_ne_none c hand.1

theorem andThen_assoc {next' : σ → Asked α β σ} :
    (r.andThen next).andThen next' = r.andThen fun user => (next user).andThen next' := by
  cases h : r.refused with
  | none =>
      rw [andThen_of_none h, andThen_of_none h]
      cases h' : (next r.user).refused with
      | none =>
          rw [andThen_of_none rfl, andThen_of_none h', List.append_assoc]
      | some c =>
          rw [andThen_of_some h', andThen_of_some rfl, h']
  | some c =>
      rw [andThen_of_some h, andThen_of_some h, andThen_of_some h]

theorem refused_rename_eq_none : (r.rename g).refused = none ↔ r.refused = none :=
  Option.map_eq_none_iff

end Asked

section Ask

variable {α β γ σ : Type*} (answer : σ → α → σ × β) (goes : α → β → Bool)

/-- Ask about the elements of a list, up to the first answer that is refused. -/
def askAll : σ → List α → Asked α β σ
  | user, [] => ⟨[], user, none⟩
  | user, a :: as =>
      let c := answer user a
      if goes a c.2 then
        let r := askAll c.1 as
        ⟨(a, c.2) :: r.made, r.user, r.refused⟩
      else
        ⟨[(a, c.2)], c.1, some (a, c.2)⟩

variable {answer goes} {user : σ} {a : α} {as bs : List α}

theorem askAll_cons : askAll answer goes user (a :: as) =
    if goes a (answer user a).2 then
      ⟨(a, (answer user a).2) :: (askAll answer goes (answer user a).1 as).made,
        (askAll answer goes (answer user a).1 as).user,
        (askAll answer goes (answer user a).1 as).refused⟩
    else
      ⟨[(a, (answer user a).2)], (answer user a).1, some (a, (answer user a).2)⟩ := rfl

theorem askAll_cons_of_goes (h : goes a (answer user a).2 = true) :
    askAll answer goes user (a :: as) =
      (Asked.mk [(a, (answer user a).2)] (answer user a).1 none).andThen
        fun user => askAll answer goes user as := by
  rw [askAll_cons, if_pos h]
  rfl

theorem askAll_cons_of_refused (h : ¬ goes a (answer user a).2 = true) :
    askAll answer goes user (a :: as) =
      ⟨[(a, (answer user a).2)], (answer user a).1, some (a, (answer user a).2)⟩ := by
  rw [askAll_cons, if_neg h]

theorem askAll_append : askAll answer goes user (as ++ bs) =
    (askAll answer goes user as).andThen fun user => askAll answer goes user bs := by
  induction as generalizing user with
  | nil => rfl
  | cons a as ih =>
      rw [List.cons_append]
      by_cases h : goes a (answer user a).2 = true
      · rw [askAll_cons_of_goes h, askAll_cons_of_goes h, Asked.andThen_assoc]
        exact congrArg (Asked.andThen _) (funext fun _ => ih)
      · rw [askAll_cons_of_refused h, askAll_cons_of_refused h]
        rfl

theorem askAll_map {answer' : σ → γ → σ × β} {goes' : γ → β → Bool} {g : α → γ}
    (hanswer : ∀ user a, answer' user (g a) = answer user a)
    (hgoes : ∀ a b, goes' (g a) b = goes a b) :
    askAll answer' goes' user (as.map g) = (askAll answer goes user as).rename g := by
  induction as generalizing user with
  | nil => rfl
  | cons a as ih =>
      rw [List.map_cons, askAll_cons, askAll_cons, hanswer, hgoes, ih]
      by_cases h : goes a (answer user a).2 = true
      · rw [if_pos h, if_pos h]
        rfl
      · rw [if_neg h, if_neg h]
        rfl

theorem mem_of_made {c : α × β} (h : c ∈ (askAll answer goes user as).made) : c.1 ∈ as := by
  induction as generalizing user with
  | nil => cases h
  | cons a as ih =>
      rw [askAll_cons] at h
      by_cases hgoes : goes a (answer user a).2 = true
      · rw [if_pos hgoes] at h
        rcases List.mem_cons.mp h with rfl | hmem
        · exact List.mem_cons_self
        · exact List.mem_cons_of_mem a (ih hmem)
      · rw [if_neg hgoes] at h
        rw [List.mem_singleton.mp h]
        exact List.mem_cons_self

theorem goes_of_none (h : (askAll answer goes user as).refused = none) :
    ∀ c ∈ (askAll answer goes user as).made, goes c.1 c.2 = true := by
  induction as generalizing user with
  | nil => exact fun _ => nofun
  | cons a as ih =>
      rw [askAll_cons] at h ⊢
      by_cases hgoes : goes a (answer user a).2 = true
      · rw [if_pos hgoes] at h ⊢
        exact List.forall_mem_cons.mpr ⟨hgoes, ih h⟩
      · rw [if_neg hgoes] at h
        cases h

theorem exists_answer_of_made {c : α × β} (h : c ∈ (askAll answer goes user as).made) :
    ∃ u, c.2 = (answer u c.1).2 := by
  induction as generalizing user with
  | nil => cases h
  | cons a as ih =>
      rw [askAll_cons] at h
      by_cases hgoes : goes a (answer user a).2 = true
      · rw [if_pos hgoes] at h
        rcases List.mem_cons.mp h with rfl | hmem
        · exact ⟨user, rfl⟩
        · exact ih hmem
      · rw [if_neg hgoes] at h
        rw [List.mem_singleton.mp h]
        exact ⟨user, rfl⟩

theorem map_fst_made_of_none (h : (askAll answer goes user as).refused = none) :
    (askAll answer goes user as).made.map Prod.fst = as := by
  induction as generalizing user with
  | nil => rfl
  | cons a as ih =>
      rw [askAll_cons] at h ⊢
      by_cases hgoes : goes a (answer user a).2 = true
      · rw [if_pos hgoes] at h ⊢
        exact congrArg (List.cons a) (ih h)
      · rw [if_neg hgoes] at h
        cases h

theorem length_made_of_none (h : (askAll answer goes user as).refused = none) :
    (askAll answer goes user as).made.length = as.length := by
  rw [← List.length_map (f := Prod.fst), map_fst_made_of_none h]

theorem refused_eq_none_of_goes (h : ∀ user, ∀ a ∈ as, goes a (answer user a).2 = true) :
    (askAll answer goes user as).refused = none := by
  induction as generalizing user with
  | nil => rfl
  | cons a as ih =>
      rw [askAll_cons, if_pos (h user a List.mem_cons_self)]
      exact ih fun user b hb => h user b (List.mem_cons_of_mem a hb)

/-- A refused answer is the last one, and the only one that is refused. -/
theorem made_of_some {c : α × β} (h : (askAll answer goes user as).refused = some c) :
    c.1 ∈ as ∧ ¬ goes c.1 c.2 = true ∧ ∃ before,
      (askAll answer goes user as).made = before ++ [c] ∧
        ∀ e ∈ before, goes e.1 e.2 = true := by
  induction as generalizing user with
  | nil => cases h
  | cons a as ih =>
      rw [askAll_cons] at h ⊢
      by_cases hgoes : goes a (answer user a).2 = true
      · rw [if_pos hgoes] at h ⊢
        obtain ⟨hmem, hrefused, before, hmade, hbefore⟩ := ih h
        exact ⟨List.mem_cons_of_mem a hmem, hrefused, (a, (answer user a).2) :: before,
          congrArg (List.cons _) hmade, List.forall_mem_cons.mpr ⟨hgoes, hbefore⟩⟩
      · rw [if_neg hgoes] at h ⊢
        cases h
        exact ⟨List.mem_cons_self, hgoes, [], rfl, fun _ => nofun⟩

end Ask

/-! ## Places -/

open PTree

/-- A node of a tree, with what lies below it and the frames above it. -/
structure Place (α : Type*) where
  left : PTree α
  addr : Addr
  data : α
  right : PTree α
  above : List (Frame α)

namespace Place

variable {α : Type*}

/-- The subtree at a place. -/
def tree (p : Place α) : PTree α := .node p.left p.addr p.data p.right

/-- The same place, in a larger tree. -/
def below (f : Frame α) (p : Place α) : Place α := { p with above := p.above ++ [f] }

@[simp] theorem above_below (f : Frame α) (p : Place α) : (p.below f).above = p.above ++ [f] := rfl

end Place

namespace PTree

variable {α : Type*} {sorted : Bool} {t : PTree α} {p : Place α}

/-- The places of a tree, in order or in preorder. -/
def places (sorted : Bool) : PTree α → List (Place α)
  | leaf => []
  | node l a x r =>
      if sorted then
        (places sorted l).map (Place.below ⟨.left, a, x, r⟩) ++
          ([⟨l, a, x, r, []⟩] ++ (places sorted r).map (Place.below ⟨.right, a, x, l⟩))
      else
        [⟨l, a, x, r, []⟩] ++
          ((places sorted l).map (Place.below ⟨.left, a, x, r⟩) ++
            (places sorted r).map (Place.below ⟨.right, a, x, l⟩))

theorem length_places (t : PTree α) : (places sorted t).length = t.size := by
  induction t with
  | leaf => rfl
  | node l a x r ihl ihr =>
      rw [places, size]
      cases sorted
      · simp [ihl, ihr]
      · simp [ihl, ihr]
        omega

theorem map_data_below (f : Frame α) (ps : List (Place α)) :
    (ps.map (Place.below f)).map Place.data = ps.map Place.data := by
  rw [List.map_map]
  rfl

theorem map_data_places (t : PTree α) : (places true t).map Place.data = t.values := by
  induction t with
  | leaf => rfl
  | node l a x r ihl ihr =>
      rw [places, values, if_pos rfl, List.map_append, List.map_append, map_data_below,
        map_data_below, ihl, ihr]
      rfl

theorem places_perm (sorted : Bool) (t : PTree α) : ((places sorted t).map Place.data).Perm t.values := by
  cases sorted with
  | true => exact List.Perm.of_eq (map_data_places t)
  | false =>
      induction t with
      | leaf => exact List.Perm.refl _
      | node l a x r ihl ihr =>
          rw [places, values, if_neg Bool.false_ne_true, List.map_append, List.map_append,
            map_data_below, map_data_below]
          have hfront : (x :: ((places false l).map Place.data ++
              (places false r).map Place.data)).Perm (l.values ++ x :: r.values) :=
            List.perm_middle.symm.trans (ihl.append (ihr.cons x))
          exact hfront

theorem plug_place (h : p ∈ places sorted t) : plug p.tree p.above = t := by
  induction t generalizing p with
  | leaf => cases h
  | node l a x r ihl ihr =>
      have hparts : p ∈ (places sorted l).map (Place.below ⟨.left, a, x, r⟩) ∨
          p = ⟨l, a, x, r, []⟩ ∨ p ∈ (places sorted r).map (Place.below ⟨.right, a, x, l⟩) := by
        rw [places] at h
        cases sorted
        · simpa [or_left_comm] using h
        · simpa using h
      rcases hparts with hl | rfl | hr
      · obtain ⟨q, hq, rfl⟩ := List.mem_map.mp hl
        rw [Place.above_below, plug_append]
        exact congrArg (fun u => plug u [⟨.left, a, x, r⟩]) (ihl hq)
      · rfl
      · obtain ⟨q, hq, rfl⟩ := List.mem_map.mp hr
        rw [Place.above_below, plug_append]
        exact congrArg (fun u => plug u [⟨.right, a, x, l⟩]) (ihr hq)

/-- The root of `join s t u a x`, as a place. -/
def here (s : Side) (t u : PTree α) (a : Addr) (x : α) : Place α :=
  match s with
  | .left => ⟨t, a, x, u, []⟩
  | .right => ⟨u, a, x, t, []⟩

/-- The places of `join s t u a x` that come before those of `t`. -/
def earlier (sorted : Bool) (s : Side) (t u : PTree α) (a : Addr) (x : α) : List (Place α) :=
  match sorted, s with
  | true, .left => []
  | true, .right => (places true u).map (Place.below ⟨.left, a, x, t⟩) ++ [here s t u a x]
  | false, .left => [here s t u a x]
  | false, .right => [here s t u a x] ++ (places false u).map (Place.below ⟨.left, a, x, t⟩)

/-- The places of `join s t u a x` that come after those of `t`. -/
def later (sorted : Bool) (s : Side) (t u : PTree α) (a : Addr) (x : α) : List (Place α) :=
  match sorted, s with
  | true, .left => [here s t u a x] ++ (places true u).map (Place.below ⟨.right, a, x, t⟩)
  | false, .left => (places false u).map (Place.below ⟨.right, a, x, t⟩)
  | _, .right => []

theorem places_join (sorted : Bool) (s : Side) (t u : PTree α) (a : Addr) (x : α) :
    places sorted (join s t u a x) = earlier sorted s t u a x ++
      ((places sorted t).map (Place.below ⟨s, a, x, u⟩) ++ later sorted s t u a x) := by
  cases sorted <;> cases s <;> simp [join, places, earlier, later, here]

/-- Nothing comes after the right subtree. -/
theorem places_node (sorted : Bool) (l : PTree α) (a : Addr) (x : α) (r : PTree α) :
    places sorted (node l a x r) = earlier sorted .right r l a x ++
      (places sorted r).map (Place.below ⟨.right, a, x, l⟩) := by
  have hsplit := places_join sorted .right r l a x
  have hlater : later sorted .right r l a x = [] := by
    cases sorted <;> rfl
  rw [hlater, List.append_nil] at hsplit
  exact hsplit

theorem exists_places_node (sorted : Bool) (l : PTree α) (a : Addr) (x : α) (r : PTree α) :
    ∃ ps, places sorted (node l a x r) =
      (if sorted then (places true l).map (Place.below ⟨.left, a, x, r⟩) else []) ++
        ([⟨l, a, x, r, []⟩] ++ ps) := by
  cases sorted
  · exact ⟨_, rfl⟩
  · exact ⟨_, rfl⟩

/-- A place that comes before a child is above it, or on the other side. -/
theorem above_of_earlier {s : Side} {t u : PTree α} {a : Addr} {x : α}
    (h : p ∈ earlier sorted s t u a x) :
    p.above = [] ∨ ∃ fs, p.above = fs ++ [⟨s.other, a, x, t⟩] := by
  have hbelow : ∀ {q : Place α} {l : List (Place α)} {f : Frame α},
      q ∈ l.map (Place.below f) → ∃ fs, q.above = fs ++ [f] := by
    intro q l f hq
    obtain ⟨q', -, rfl⟩ := List.mem_map.mp hq
    exact ⟨q'.above, rfl⟩
  cases s with
  | left =>
      cases sorted with
      | false =>
          cases List.mem_singleton.mp h
          exact Or.inl rfl
      | true => cases h
  | right =>
      have hparts : p ∈ (places sorted u).map (Place.below ⟨.left, a, x, t⟩) ∨
          p = here .right t u a x := by
        cases sorted with
        | false => exact (List.mem_cons.mp h).symm
        | true => exact (List.mem_append.mp h).imp_right List.mem_singleton.mp
      rcases hparts with hother | rfl
      · exact Or.inr (hbelow hother)
      · exact Or.inl rfl

end PTree

/-! ## The way to a refused answer -/

section Reached

open PTree

variable {α β σ : Type*} (ask : σ → α → σ × β) (goes : Place α → β → Bool) (sorted : Bool)

/-- Ask about some places. -/
def askPlaces (user : σ) (ps : List (Place α)) : Asked (Place α) β σ :=
  askAll (fun user p => ask user p.data) goes user ps

/-- Asking about the places of a tree ends before all have been asked.  This is at the root,
or in a subtree after all that comes before it has been asked. -/
inductive Reached : σ → PTree α → Asked (Place α) β σ → Prop where
  | here {user : σ} (l : PTree α) (a : Addr) (x : α) (r : PTree α) {pre : Asked (Place α) β σ}
      (hpre : askPlaces ask goes user
        (if sorted then (places true l).map (Place.below ⟨.left, a, x, r⟩) else []) = pre)
      (hpass : pre.refused = none)
      (hrefused : ¬ goes ⟨l, a, x, r, []⟩ (ask pre.user x).2 = true) :
      Reached user (.node l a x r)
        (pre.andThen fun user => askPlaces ask goes user [⟨l, a, x, r, []⟩])
  | inside {user : σ} (s : Side) (t u : PTree α) (a : Addr) (x : α) {pre r : Asked (Place α) β σ}
      (hpre : askPlaces ask goes user (earlier sorted s t u a x) = pre)
      (hpass : pre.refused = none) (hbelow : Reached pre.user t r) :
      Reached user (join s t u a x)
        (pre.andThen fun _ => r.rename (Place.below ⟨s, a, x, u⟩))

variable {ask goes sorted} {user : σ} {t : PTree α}

theorem askPlaces_append {ps qs : List (Place α)} :
    askPlaces ask goes user (ps ++ qs) =
      (askPlaces ask goes user ps).andThen fun user => askPlaces ask goes user qs :=
  askAll_append

/-- What is asked does not depend on what is above. -/
theorem askPlaces_below (hgoes : ∀ f p c, goes (Place.below f p) c = goes p c)
    {ps : List (Place α)} (f : Frame α) :
    askPlaces ask goes user (ps.map (Place.below f)) =
      (askPlaces ask goes user ps).rename (Place.below f) :=
  askAll_map (fun _ _ => rfl) (hgoes f)

theorem askPlaces_single_of_refused {p : Place α} (h : ¬ goes p (ask user p.data).2 = true) :
    askPlaces ask goes user [p] =
      ⟨[(p, (ask user p.data).2)], (ask user p.data).1, some (p, (ask user p.data).2)⟩ :=
  askAll_cons_of_refused h

theorem askPlaces_single_of_goes {p : Place α} (h : goes p (ask user p.data).2 = true) :
    askPlaces ask goes user [p] =
      ⟨[(p, (ask user p.data).2)], (ask user p.data).1, none⟩ :=
  askAll_cons_of_goes h

theorem refused_single_eq_none {p : Place α} :
    (askPlaces ask goes user [p]).refused = none ↔ goes p (ask user p.data).2 = true := by
  by_cases h : goes p (ask user p.data).2 = true
  · rw [askPlaces_single_of_goes h]
    exact iff_of_true rfl h
  · rw [askPlaces_single_of_refused h]
    exact iff_of_false (Option.some_ne_none _) h

theorem Reached.ne_leaf {r : Asked (Place α) β σ} (h : Reached ask goes sorted user t r) :
    t ≠ .leaf := by
  cases h with
  | here => exact join_ne_leaf .left _ _ _ _
  | inside => exact join_ne_leaf _ _ _ _ _

/-- An answer that is refused further down was refused in the subtree. -/
theorem refused_of_inside {pre r : Asked (Place α) β σ} {f : Frame α} {p : Place α} {c : β}
    (hpass : pre.refused = none)
    (h : (pre.andThen fun _ => r.rename (Place.below f)).refused = some (p, c)) :
    ∃ q, r.refused = some (q, c) ∧ q.below f = p := by
  rw [Asked.andThen_of_none hpass] at h
  obtain ⟨⟨q, c'⟩, hq, heq⟩ := Option.map_eq_some_iff.mp h
  cases heq
  exact ⟨q, hq, rfl⟩

theorem Reached.depth_lt {r : Asked (Place α) β σ} (h : Reached ask goes sorted user t r) :
    ∀ {p : Place α} {c : β}, r.refused = some (p, c) → p.above.length < t.height := by
  induction h with
  | here l a x r hpre hpass hrefused =>
      intro p c hr
      rw [Asked.andThen_of_none hpass, askPlaces_single_of_refused hrefused] at hr
      cases hr
      exact Nat.succ_pos _
  | inside s t u a x hpre hpass hbelow ih =>
      intro p c hr
      obtain ⟨q, hq, rfl⟩ := refused_of_inside hpass hr
      have hlt := ih hq
      rw [Place.above_below, List.length_append, List.length_singleton, height_join]
      omega

/-- The asking ends at the root. -/
theorem reached_here {l r : PTree α} {a : Addr} {x : α} {pre : Asked (Place α) β σ}
    (hpre : askPlaces ask goes user
      (if sorted then (places true l).map (Place.below ⟨.left, a, x, r⟩) else []) = pre)
    (hpass : pre.refused = none)
    (hrefused : (askPlaces ask goes pre.user [⟨l, a, x, r, []⟩]).refused ≠ none) :
    Reached ask goes sorted user (.node l a x r)
      (askPlaces ask goes user (places sorted (.node l a x r))) := by
  obtain ⟨rest, hrest⟩ := exists_places_node sorted l a x r
  obtain ⟨c, hc⟩ := Option.ne_none_iff_exists'.mp hrefused
  have heq : askPlaces ask goes user (places sorted (.node l a x r)) =
      pre.andThen fun user => askPlaces ask goes user [⟨l, a, x, r, []⟩] := by
    rw [hrest, askPlaces_append, hpre, Asked.andThen_of_none hpass, Asked.andThen_of_none hpass,
      askPlaces_append, Asked.andThen_of_some hc]
  rw [heq]
  exact Reached.here l a x r hpre hpass fun hgo => hrefused (refused_single_eq_none.mpr hgo)

section Refused

variable (hgoes : ∀ f p c, goes (Place.below f p) c = goes p c)
include hgoes

/-- The asking ends in a subtree. -/
theorem reached_inside {s : Side} {u : PTree α} {a : Addr} {x : α} {pre : Asked (Place α) β σ}
    (hpre : askPlaces ask goes user (earlier sorted s t u a x) = pre) (hpass : pre.refused = none)
    (hrefused : (askPlaces ask goes pre.user (places sorted t)).refused ≠ none)
    (ih : Reached ask goes sorted pre.user t (askPlaces ask goes pre.user (places sorted t))) :
    Reached ask goes sorted user (join s t u a x)
      (askPlaces ask goes user (places sorted (join s t u a x))) := by
  obtain ⟨c, hc⟩ := Option.ne_none_iff_exists'.mp hrefused
  have hc' : ((askPlaces ask goes pre.user (places sorted t)).rename
      (Place.below ⟨s, a, x, u⟩)).refused = some (Prod.map (Place.below ⟨s, a, x, u⟩) id c) :=
    congrArg (Option.map _) hc
  have heq : askPlaces ask goes user (places sorted (join s t u a x)) = pre.andThen fun _ =>
      (askPlaces ask goes pre.user (places sorted t)).rename (Place.below ⟨s, a, x, u⟩) := by
    rw [places_join, askPlaces_append, hpre, Asked.andThen_of_none hpass,
      Asked.andThen_of_none hpass, askPlaces_append, askPlaces_below hgoes,
      Asked.andThen_of_some hc']
  rw [heq]
  exact Reached.inside s t u a x hpre hpass ih

theorem refused_join_eq_none {s : Side} {u : PTree α} {a : Addr} {x : α} :
    (askPlaces ask goes user (places sorted (join s t u a x))).refused = none ↔
      (askPlaces ask goes user (earlier sorted s t u a x)).refused = none ∧
      (askPlaces ask goes (askPlaces ask goes user (earlier sorted s t u a x)).user
        (places sorted t)).refused = none ∧
      (askPlaces ask goes (askPlaces ask goes (askPlaces ask goes user
        (earlier sorted s t u a x)).user (places sorted t)).user
        (later sorted s t u a x)).refused = none := by
  rw [places_join, askPlaces_append, Asked.refused_andThen_eq_none, askPlaces_append,
    Asked.refused_andThen_eq_none, askPlaces_below hgoes, Asked.refused_rename_eq_none]
  rfl

theorem reached_of_refused (h : (askPlaces ask goes user (places sorted t)).refused ≠ none) :
    Reached ask goes sorted user t (askPlaces ask goes user (places sorted t)) := by
  induction t generalizing user with
  | leaf => exact absurd rfl h
  | node l a x r ihl ihr =>
      -- the asking ends in one of the subtrees, or at the root after what comes before it
      by_cases hright : (askPlaces ask goes user (earlier sorted .right r l a x)).refused = none
      · refine reached_inside hgoes (s := .right) rfl hright ?_ (ihr ?_)
        all_goals
          intro hr
          refine h ((refused_join_eq_none hgoes (s := .right)).mpr ⟨hright, hr, ?_⟩)
          cases sorted <;> rfl
      cases sorted with
      | false =>
          by_cases hhere : (askPlaces ask goes user [here .right r l a x]).refused = none
          · refine reached_inside hgoes (s := .left) rfl hhere ?_ (ihl ?_)
            all_goals
              intro hl
              refine hright (askPlaces_append ▸ Asked.refused_andThen_eq_none.mpr ⟨hhere, ?_⟩)
              rw [askPlaces_below hgoes, Asked.refused_rename_eq_none]
              exact hl
          · exact reached_here rfl rfl hhere
      | true =>
          by_cases hl : (askPlaces ask goes user (places true l)).refused = none
          · have hl' : (askPlaces ask goes user
                ((places true l).map (Place.below ⟨.left, a, x, r⟩))).refused = none := by
              rw [askPlaces_below hgoes, Asked.refused_rename_eq_none]
              exact hl
            refine reached_here rfl hl' fun hhere => hright ?_
            exact askPlaces_append ▸ Asked.refused_andThen_eq_none.mpr ⟨hl', hhere⟩
          · exact reached_inside hgoes (s := .left) rfl rfl hl (ihl hl)

end Refused

end Reached

end LibHL
