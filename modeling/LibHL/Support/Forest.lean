import Mathlib.Algebra.BigOperators.Group.List.Basic
import Mathlib.Algebra.BigOperators.Option
import Mathlib.Data.Finset.Card
import Mathlib.Data.Finset.Lattice.Fold
import Mathlib.Data.List.Perm.Basic
import Mathlib.Tactic.Common

/-!
# Forests by parents and children

A forest on a finite set of nodes is given by a partial parent function and by
the list of children of each node, which have to agree, and by the list of its
roots.  A rank that grows towards the roots rules out cycles.  The lemmas say
how the forest changes when a root is linked under another one, or when a node
is removed and its children move elsewhere.
-/

namespace LibHL

variable {α : Type*}

/-- Parents, children and roots agree, and the parents of a node never lead back
to it. -/
structure Forest (ns : Finset α) (roots : List α) (par : α → Option α)
    (kids : α → List α) : Prop where
  rootsNodup : roots.Nodup
  root : ∀ a, a ∈ roots ↔ a ∈ ns ∧ par a = none
  kidsNodup : ∀ a ∈ ns, (kids a).Nodup
  kid : ∀ a ∈ ns, ∀ c, c ∈ kids a ↔ c ∈ ns ∧ par c = some a
  parent : ∀ c ∈ ns, ∀ a, par c = some a → a ∈ ns
  ranked : ∃ rank : α → ℕ, ∀ c ∈ ns, ∀ a, par c = some a → rank c < rank a

namespace Forest

variable {ns : Finset α} {roots roots' : List α} {par par' : α → Option α}
  {kids kids' : α → List α} {a c p r : α}

theorem empty : Forest (∅ : Finset α) [] par kids where
  rootsNodup := List.nodup_nil
  root := by simp
  kidsNodup := by simp
  kid := by simp
  parent := by simp
  ranked := ⟨fun _ => 0, by simp⟩

theorem mem_of_root (h : Forest ns roots par kids) (ha : a ∈ roots) : a ∈ ns :=
  ((h.root a).mp ha).1

theorem par_of_root (h : Forest ns roots par kids) (ha : a ∈ roots) : par a = none :=
  ((h.root a).mp ha).2

theorem mem_of_kid (h : Forest ns roots par kids) (ha : a ∈ ns) (hc : c ∈ kids a) :
    c ∈ ns :=
  ((h.kid a ha c).mp hc).1

theorem par_of_kid (h : Forest ns roots par kids) (ha : a ∈ ns) (hc : c ∈ kids a) :
    par c = some a :=
  ((h.kid a ha c).mp hc).2

theorem kid_ne_root (h : Forest ns roots par kids) (ha : a ∈ ns) (hc : c ∈ kids a)
    (hr : r ∈ roots) : c ≠ r := by
  rintro rfl
  have hpar := h.par_of_kid ha hc
  rw [h.par_of_root hr] at hpar
  cases hpar

/-- A property that holds of the roots and passes from a node to its children
holds of all nodes. -/
theorem induct (h : Forest ns roots par kids) {P : α → Prop} (hroot : ∀ a ∈ roots, P a)
    (hkid : ∀ a ∈ ns, P a → ∀ c ∈ kids a, P c) : ∀ a ∈ ns, P a := by
  obtain ⟨rank, hrank⟩ := h.ranked
  -- Induction on the distance of the rank from the top rank.
  have hmain : ∀ n, ∀ a ∈ ns, ns.sup rank - rank a ≤ n → P a := by
    intro n
    induction n with
    | zero =>
        intro a ha hle
        have hle' : rank a ≤ ns.sup rank := Finset.le_sup ha
        cases hp : par a with
        | none => exact hroot a ((h.root a).mpr ⟨ha, hp⟩)
        | some b =>
            have hlt := hrank a ha b hp
            have hb : rank b ≤ ns.sup rank := Finset.le_sup (h.parent a ha b hp)
            omega
    | succ n ih =>
        intro a ha hle
        cases hp : par a with
        | none => exact hroot a ((h.root a).mpr ⟨ha, hp⟩)
        | some b =>
            have hb := h.parent a ha b hp
            have hlt := hrank a ha b hp
            have hbs : rank b ≤ ns.sup rank := Finset.le_sup hb
            exact hkid b hb (ih b hb (by omega)) a ((h.kid b hb a).mpr ⟨ha, hp⟩)
  intro a ha
  exact hmain _ a ha (Nat.le_refl _)

/-- The rank can be chosen below the number of nodes. -/
theorem exists_rank_lt (h : Forest ns roots par kids) :
    ∃ rank : α → ℕ, (∀ a ∈ ns, ∀ c ∈ kids a, rank c < rank a) ∧
      ∀ a ∈ ns, rank a < ns.card := by
  obtain ⟨rank, hrank⟩ := h.ranked
  refine ⟨fun a => (ns.filter fun b => rank b < rank a).card, ?_, ?_⟩
  · intro a ha c hc
    have hlt := hrank c (h.mem_of_kid ha hc) a (h.par_of_kid ha hc)
    apply Finset.card_lt_card
    refine ⟨?_, ?_⟩
    · intro b hb
      rw [Finset.mem_filter] at hb ⊢
      exact ⟨hb.1, hb.2.trans hlt⟩
    · intro hsub
      have hmem := hsub (Finset.mem_filter.mpr ⟨h.mem_of_kid ha hc, hlt⟩)
      exact Nat.lt_irrefl _ (Finset.mem_filter.mp hmem).2
  · intro a ha
    apply Finset.card_lt_card
    refine ⟨Finset.filter_subset _ _, ?_⟩
    intro hsub
    have hmem := hsub ha
    exact Nat.lt_irrefl _ (Finset.mem_filter.mp hmem).2

theorem congr (h : Forest ns roots par kids) (hpar : ∀ x ∈ ns, par' x = par x)
    (hkids : ∀ x ∈ ns, kids' x = kids x) (hroots : roots'.Perm roots) :
    Forest ns roots' par' kids' := by
  obtain ⟨rank, hrank⟩ := h.ranked
  refine ⟨hroots.nodup_iff.mpr h.rootsNodup, ?_, ?_, ?_, ?_, rank, ?_⟩
  · intro x
    rw [hroots.mem_iff, h.root]
    constructor
    · rintro ⟨hx, hp⟩
      exact ⟨hx, by rw [hpar x hx, hp]⟩
    · rintro ⟨hx, hp⟩
      exact ⟨hx, by rw [← hpar x hx, hp]⟩
  · intro x hx
    rw [hkids x hx]
    exact h.kidsNodup x hx
  · intro x hx y
    rw [hkids x hx, h.kid x hx]
    constructor
    · rintro ⟨hy, hp⟩
      exact ⟨hy, by rw [hpar y hy, hp]⟩
    · rintro ⟨hy, hp⟩
      exact ⟨hy, by rw [← hpar y hy, hp]⟩
  · intro x hx y hp
    rw [hpar x hx] at hp
    exact h.parent x hx y hp
  · intro x hx y hp
    rw [hpar x hx] at hp
    exact hrank x hx y hp

/-- A forest under other names of its nodes. -/
theorem map {β : Type*} (h : Forest ns roots par kids) (e : α ↪ β) {par₂ : β → Option β}
    {kids₂ : β → List β} (hpar : ∀ x ∈ ns, par₂ (e x) = (par x).map e)
    (hkids : ∀ x ∈ ns, kids₂ (e x) = (kids x).map e) :
    Forest (ns.map e) (roots.map e) par₂ kids₂ := by
  obtain ⟨rank, hrank⟩ := h.ranked
  have hmem : ∀ y ∈ ns.map e, ∃ x ∈ ns, e x = y := fun y hy => Finset.mem_map.mp hy
  have hsome : ∀ x ∈ ns, ∀ y, par₂ (e x) = some y ↔ ∃ z, par x = some z ∧ e z = y := by
    intro x hx y
    rw [hpar x hx, Option.map_eq_some_iff]
  refine ⟨h.rootsNodup.map e.injective, ?_, ?_, ?_, ?_, Function.extend e rank 0, ?_⟩
  · intro y
    rw [List.mem_map, Finset.mem_map]
    constructor
    · rintro ⟨x, hx, rfl⟩
      have hxns := h.mem_of_root hx
      exact ⟨⟨x, hxns, rfl⟩, by rw [hpar x hxns, h.par_of_root hx]; rfl⟩
    · rintro ⟨⟨x, hx, rfl⟩, hp⟩
      rw [hpar x hx, Option.map_eq_none_iff] at hp
      exact ⟨x, (h.root x).mpr ⟨hx, hp⟩, rfl⟩
  · intro y hy
    obtain ⟨x, hx, rfl⟩ := hmem y hy
    rw [hkids x hx]
    exact (h.kidsNodup x hx).map e.injective
  · intro y hy z
    obtain ⟨x, hx, rfl⟩ := hmem y hy
    rw [hkids x hx, List.mem_map, Finset.mem_map]
    constructor
    · rintro ⟨c, hc, rfl⟩
      have hcns := h.mem_of_kid hx hc
      exact ⟨⟨c, hcns, rfl⟩, (hsome c hcns (e x)).mpr ⟨x, h.par_of_kid hx hc, rfl⟩⟩
    · rintro ⟨⟨c, hc, rfl⟩, hp⟩
      obtain ⟨x', hpc, heq⟩ := (hsome c hc (e x)).mp hp
      rw [e.injective heq] at hpc
      exact ⟨c, (h.kid x hx c).mpr ⟨hc, hpc⟩, rfl⟩
  · intro y hy z hp
    obtain ⟨x, hx, rfl⟩ := hmem y hy
    obtain ⟨x', hpx, rfl⟩ := (hsome x hx z).mp hp
    exact Finset.mem_map.mpr ⟨x', h.parent x hx x' hpx, rfl⟩
  · intro y hy z hp
    obtain ⟨x, hx, rfl⟩ := hmem y hy
    obtain ⟨x', hpx, rfl⟩ := (hsome x hx z).mp hp
    rw [e.injective.extend_apply, e.injective.extend_apply]
    exact hrank x hx x' hpx

variable [DecidableEq α]

/-! ## Sums over a forest -/

theorem sum_map_eq_sum {M : Type*} [AddCommMonoid M] {l : List α} {s : Finset α}
    (hl : l.Nodup) (hmem : ∀ a, a ∈ l ↔ a ∈ s) (f : α → M) :
    (l.map f).sum = ∑ a ∈ s, f a := by
  have hs : s = l.toFinset := by
    ext a
    rw [List.mem_toFinset, hmem]
  rw [hs, List.sum_toFinset f hl]

/-- Every node is a root or a child of exactly one node. -/
theorem sum_eq_add_sum_kids {M : Type*} [AddCommMonoid M] (h : Forest ns roots par kids)
    (f : α → M) :
    ∑ a ∈ ns, f a = (roots.map f).sum + ∑ a ∈ ns, ((kids a).map f).sum := by
  have hmaps : ∀ c ∈ ns, par c ∈ Finset.insertNone ns := by
    intro c hc
    rw [Finset.mem_insertNone]
    exact fun a ha => h.parent c hc a ha
  have hroots : (roots.map f).sum = ∑ c ∈ ns with par c = none, f c := by
    apply sum_map_eq_sum h.rootsNodup
    intro a
    rw [h.root, Finset.mem_filter]
  have hkids : ∀ a ∈ ns, ((kids a).map f).sum = ∑ c ∈ ns with par c = some a, f c := by
    intro a ha
    apply sum_map_eq_sum (h.kidsNodup a ha)
    intro c
    rw [h.kid a ha, Finset.mem_filter]
  calc ∑ a ∈ ns, f a
      = ∑ o ∈ Finset.insertNone ns, ∑ c ∈ ns with par c = o, f c :=
        (Finset.sum_fiberwise_of_maps_to hmaps f).symm
    _ = (∑ c ∈ ns with par c = none, f c) + ∑ a ∈ ns, ∑ c ∈ ns with par c = some a, f c :=
        Finset.sum_insertNone _ ns
    _ = (roots.map f).sum + ∑ a ∈ ns, ((kids a).map f).sum := by
        rw [hroots, Finset.sum_congr rfl hkids]

/-- What grows by `g` from the children of a node to the node itself sums up to `g`
over all nodes at the roots. -/
theorem sum_roots {M : Type*} [AddCancelCommMonoid M] (h : Forest ns roots par kids)
    {f g : α → M} (hf : ∀ a ∈ ns, f a = g a + ((kids a).map f).sum) :
    (roots.map f).sum = ∑ a ∈ ns, g a := by
  have hsum : ∑ a ∈ ns, f a = ∑ a ∈ ns, g a + ∑ a ∈ ns, ((kids a).map f).sum := by
    rw [← Finset.sum_add_distrib]
    exact Finset.sum_congr rfl hf
  rw [h.sum_eq_add_sum_kids f] at hsum
  exact add_right_cancel hsum

/-! ## Changing a forest -/

/-- Two forests without a common node. -/
theorem union {ns' : Finset α} {roots₂ : List α} (h : Forest ns roots par kids)
    (h' : Forest ns' roots₂ par kids) (hd : Disjoint ns ns') :
    Forest (ns ∪ ns') (roots ++ roots₂) par kids := by
  obtain ⟨rank, hrank⟩ := h.ranked
  obtain ⟨rank', hrank'⟩ := h'.ranked
  have hnot : ∀ x ∈ ns', x ∉ ns := fun x hx' hx => Finset.disjoint_left.mp hd hx hx'
  refine ⟨?_, ?_, ?_, ?_, ?_, fun x => if x ∈ ns then rank x else rank' x, ?_⟩
  · rw [List.nodup_append]
    refine ⟨h.rootsNodup, h'.rootsNodup, ?_⟩
    rintro x hx y hy rfl
    exact hnot x (h'.mem_of_root hy) (h.mem_of_root hx)
  · intro x
    rw [List.mem_append, Finset.mem_union, h.root, h'.root, or_and_right]
  · intro x hx
    rcases Finset.mem_union.mp hx with hx | hx
    · exact h.kidsNodup x hx
    · exact h'.kidsNodup x hx
  · intro x hx y
    rw [Finset.mem_union]
    rcases Finset.mem_union.mp hx with hx | hx
    · rw [h.kid x hx]
      constructor
      · rintro ⟨hy, hp⟩
        exact ⟨Or.inl hy, hp⟩
      · rintro ⟨hy | hy, hp⟩
        · exact ⟨hy, hp⟩
        · exact absurd hx (hnot x (h'.parent y hy x hp))
    · rw [h'.kid x hx]
      constructor
      · rintro ⟨hy, hp⟩
        exact ⟨Or.inr hy, hp⟩
      · rintro ⟨hy | hy, hp⟩
        · exact absurd (h.parent y hy x hp) (hnot x hx)
        · exact ⟨hy, hp⟩
  · intro x hx y hp
    rcases Finset.mem_union.mp hx with hx | hx
    · exact Finset.mem_union_left _ (h.parent x hx y hp)
    · exact Finset.mem_union_right _ (h'.parent x hx y hp)
  · intro x hx y hp
    beta_reduce
    rcases Finset.mem_union.mp hx with hx | hx
    · rw [if_pos hx, if_pos (h.parent x hx y hp)]
      exact hrank x hx y hp
    · rw [if_neg (hnot x hx), if_neg (hnot y (h'.parent x hx y hp))]
      exact hrank' x hx y hp

/-- A new node becomes a root. -/
theorem addRoot (h : Forest ns roots par kids) (ha : a ∉ ns) (hpa : par' a = none)
    (hka : kids' a = []) (hpar : ∀ x ∈ ns, par' x = par x)
    (hkids : ∀ x ∈ ns, kids' x = kids x) :
    Forest (insert a ns) (a :: roots) par' kids' := by
  obtain ⟨rank, hrank⟩ := h.ranked
  have haroots : a ∉ roots := fun hmem => ha (h.mem_of_root hmem)
  refine ⟨List.nodup_cons.mpr ⟨haroots, h.rootsNodup⟩, ?_, ?_, ?_, ?_, rank, ?_⟩
  · intro x
    rw [List.mem_cons, Finset.mem_insert, h.root]
    constructor
    · rintro (rfl | ⟨hx, hp⟩)
      · exact ⟨Or.inl rfl, hpa⟩
      · exact ⟨Or.inr hx, by rw [hpar x hx, hp]⟩
    · rintro ⟨rfl | hx, hp⟩
      · exact Or.inl rfl
      · exact Or.inr ⟨hx, by rw [← hpar x hx, hp]⟩
  · intro x hx
    rcases Finset.mem_insert.mp hx with rfl | hx
    · rw [hka]
      exact List.nodup_nil
    · rw [hkids x hx]
      exact h.kidsNodup x hx
  · intro x hx y
    rcases Finset.mem_insert.mp hx with rfl | hx
    · rw [hka]
      constructor
      · intro hy
        cases hy
      · rintro ⟨hy, hp⟩
        rcases Finset.mem_insert.mp hy with rfl | hy
        · rw [hpa] at hp
          cases hp
        · rw [hpar y hy] at hp
          exact absurd (h.parent y hy x hp) ha
    · rw [hkids x hx, h.kid x hx]
      constructor
      · rintro ⟨hy, hp⟩
        exact ⟨Finset.mem_insert_of_mem hy, by rw [hpar y hy, hp]⟩
      · rintro ⟨hy, hp⟩
        rcases Finset.mem_insert.mp hy with rfl | hy
        · rw [hpa] at hp
          cases hp
        · exact ⟨hy, by rw [← hpar y hy, hp]⟩
  · intro x hx y hp
    rcases Finset.mem_insert.mp hx with rfl | hx
    · rw [hpa] at hp
      cases hp
    · rw [hpar x hx] at hp
      exact Finset.mem_insert_of_mem (h.parent x hx y hp)
  · intro x hx y hp
    rcases Finset.mem_insert.mp hx with rfl | hx
    · rw [hpa] at hp
      cases hp
    · rw [hpar x hx] at hp
      exact hrank x hx y hp

/-- A root is linked under another one. -/
theorem link (h : Forest ns roots par kids) (hp : p ∈ roots) (hr : r ∈ roots)
    (hne : p ≠ r) (hparr : par' r = some p) (hpar : ∀ x ∈ ns, x ≠ r → par' x = par x)
    (hkidsp : kids' p = kids p ++ [r]) (hkids : ∀ x ∈ ns, x ≠ p → kids' x = kids x)
    (hroots : roots'.Perm (roots.erase r)) : Forest ns roots' par' kids' := by
  obtain ⟨rank, hrank⟩ := h.ranked
  have hpns := h.mem_of_root hp
  have hrns := h.mem_of_root hr
  refine ⟨hroots.nodup_iff.mpr (h.rootsNodup.erase r), ?_, ?_, ?_, ?_,
    fun x => if x = p then max (rank p) (rank r + 1) else rank x, ?_⟩
  · intro x
    rw [hroots.mem_iff, h.rootsNodup.mem_erase_iff, h.root]
    constructor
    · rintro ⟨hxr, hx, hpx⟩
      exact ⟨hx, by rw [hpar x hx hxr, hpx]⟩
    · rintro ⟨hx, hpx⟩
      have hxr : x ≠ r := by
        rintro rfl
        rw [hparr] at hpx
        cases hpx
      exact ⟨hxr, hx, by rw [← hpar x hx hxr, hpx]⟩
  · intro x hx
    by_cases hxp : x = p
    · subst hxp
      rw [hkidsp, List.nodup_append]
      refine ⟨h.kidsNodup x hx, List.nodup_singleton r, ?_⟩
      rintro y hy z hz rfl
      rw [List.mem_singleton.mp hz] at hy
      have := h.par_of_kid hx hy
      rw [h.par_of_root hr] at this
      cases this
    · rw [hkids x hx hxp]
      exact h.kidsNodup x hx
  · intro x hx y
    have hold : y ≠ r → ((y ∈ ns ∧ par y = some x) ↔ (y ∈ ns ∧ par' y = some x)) := by
      intro hyr
      constructor
      · rintro ⟨hy, hpy⟩
        exact ⟨hy, by rw [hpar y hy hyr, hpy]⟩
      · rintro ⟨hy, hpy⟩
        exact ⟨hy, by rw [← hpar y hy hyr, hpy]⟩
    by_cases hxp : x = p
    · subst hxp
      rw [hkidsp, List.mem_append, List.mem_singleton]
      by_cases hyr : y = r
      · subst hyr
        exact ⟨fun _ => ⟨hrns, hparr⟩, fun _ => Or.inr rfl⟩
      · rw [h.kid x hx, hold hyr]
        exact ⟨fun hor => hor.resolve_right hyr, Or.inl⟩
    · rw [hkids x hx hxp, h.kid x hx]
      by_cases hyr : y = r
      · subst hyr
        rw [h.par_of_root hr, hparr]
        constructor
        · rintro ⟨-, hpy⟩
          cases hpy
        · rintro ⟨-, hpy⟩
          cases hpy
          exact absurd rfl hxp
      · exact hold hyr
  · intro x hx y hpx
    by_cases hxr : x = r
    · subst hxr
      rw [hparr] at hpx
      cases hpx
      exact hpns
    · rw [hpar x hx hxr] at hpx
      exact h.parent x hx y hpx
  · intro x hx y hpx
    beta_reduce
    by_cases hxr : x = r
    · subst hxr
      rw [hparr] at hpx
      cases hpx
      rw [if_neg hne.symm, if_pos rfl]
      omega
    · rw [hpar x hx hxr] at hpx
      have hlt := hrank x hx y hpx
      have hxp : x ≠ p := by
        rintro rfl
        rw [h.par_of_root hp] at hpx
        cases hpx
      rw [if_neg hxp]
      by_cases hyp : y = p
      · subst hyp
        rw [if_pos rfl]
        omega
      · rwa [if_neg hyp]

/-- A node with a parent is removed; its parent takes over its children. -/
theorem removeInner (h : Forest ns roots par kids) (ha : a ∈ ns) (hpa : par a = some p)
    (hparkid : ∀ x ∈ kids a, par' x = some p)
    (hpar : ∀ x ∈ ns, x ∉ kids a → par' x = par x)
    (hkidsp : kids' p = (kids p).erase a ++ kids a)
    (hkids : ∀ x ∈ ns, x ≠ p → kids' x = kids x) :
    Forest (ns.erase a) roots par' kids' := by
  obtain ⟨rank, hrank⟩ := h.ranked
  have hpns := h.parent a ha p hpa
  have hpanc : p ≠ a := by
    rintro rfl
    exact Nat.lt_irrefl _ (hrank p ha p hpa)
  refine ⟨h.rootsNodup, ?_, ?_, ?_, ?_, rank, ?_⟩
  · intro x
    rw [h.root, Finset.mem_erase]
    constructor
    · rintro ⟨hx, hpx⟩
      have hxa : x ≠ a := by
        rintro rfl
        rw [hpa] at hpx
        cases hpx
      have hxk : x ∉ kids a := by
        intro hk
        rw [h.par_of_kid ha hk] at hpx
        cases hpx
      exact ⟨⟨hxa, hx⟩, by rw [hpar x hx hxk, hpx]⟩
    · rintro ⟨⟨-, hx⟩, hpx⟩
      have hxk : x ∉ kids a := by
        intro hk
        rw [hparkid x hk] at hpx
        cases hpx
      exact ⟨hx, by rw [← hpar x hx hxk, hpx]⟩
  · intro x hx
    replace hx := Finset.mem_of_mem_erase hx
    by_cases hxp : x = p
    · subst hxp
      rw [hkidsp, List.nodup_append]
      refine ⟨(h.kidsNodup x hx).erase a, h.kidsNodup a ha, ?_⟩
      rintro y hy z hz rfl
      have h₁ := h.par_of_kid hx (List.mem_of_mem_erase hy)
      have h₂ := h.par_of_kid ha hz
      rw [h₁] at h₂
      exact hpanc (Option.some.inj h₂)
    · rw [hkids x hx hxp]
      exact h.kidsNodup x hx
  · intro x hx y
    obtain ⟨hxa, hx⟩ := Finset.mem_erase.mp hx
    rw [Finset.mem_erase]
    by_cases hxp : x = p
    · subst hxp
      rw [hkidsp, List.mem_append, (h.kidsNodup x hx).mem_erase_iff, h.kid x hx]
      constructor
      · rintro (⟨hya, hy, hpy⟩ | hyk)
        · have hyk : y ∉ kids a := by
            intro hk
            rw [h.par_of_kid ha hk] at hpy
            exact hxa (Option.some.inj hpy).symm
          exact ⟨⟨hya, hy⟩, by rw [hpar y hy hyk, hpy]⟩
        · have hya : y ≠ a := by
            rintro rfl
            exact Nat.lt_irrefl _ (hrank y ha y (h.par_of_kid ha hyk))
          exact ⟨⟨hya, h.mem_of_kid ha hyk⟩, hparkid y hyk⟩
      · rintro ⟨⟨hya, hy⟩, hpy⟩
        by_cases hyk : y ∈ kids a
        · exact Or.inr hyk
        · exact Or.inl ⟨hya, hy, by rw [← hpar y hy hyk, hpy]⟩
    · rw [hkids x hx hxp, h.kid x hx]
      constructor
      · rintro ⟨hy, hpy⟩
        have hyk : y ∉ kids a := by
          intro hk
          rw [h.par_of_kid ha hk] at hpy
          exact hxa (Option.some.inj hpy).symm
        have hya : y ≠ a := by
          rintro rfl
          rw [hpa] at hpy
          exact hxp (Option.some.inj hpy).symm
        exact ⟨⟨hya, hy⟩, by rw [hpar y hy hyk, hpy]⟩
      · rintro ⟨⟨-, hy⟩, hpy⟩
        by_cases hyk : y ∈ kids a
        · rw [hparkid y hyk] at hpy
          exact absurd (Option.some.inj hpy).symm hxp
        · exact ⟨hy, by rw [← hpar y hy hyk, hpy]⟩
  · intro x hx y hpx
    replace hx := Finset.mem_of_mem_erase hx
    rw [Finset.mem_erase]
    by_cases hxk : x ∈ kids a
    · rw [hparkid x hxk] at hpx
      cases hpx
      exact ⟨hpanc, hpns⟩
    · rw [hpar x hx hxk] at hpx
      refine ⟨?_, h.parent x hx y hpx⟩
      rintro rfl
      exact hxk ((h.kid y ha x).mpr ⟨hx, hpx⟩)
  · intro x hx y hpx
    replace hx := Finset.mem_of_mem_erase hx
    by_cases hxk : x ∈ kids a
    · rw [hparkid x hxk] at hpx
      cases hpx
      exact (hrank x hx a (h.par_of_kid ha hxk)).trans (hrank a ha _ hpa)
    · rw [hpar x hx hxk] at hpx
      exact hrank x hx y hpx

theorem removeLeafRoot (h : Forest ns roots par kids) (ha : a ∈ roots)
    (hka : kids a = []) (hpar : ∀ x ∈ ns, par' x = par x)
    (hkids : ∀ x ∈ ns, kids' x = kids x) (hroots : roots'.Perm (roots.erase a)) :
    Forest (ns.erase a) roots' par' kids' := by
  obtain ⟨rank, hrank⟩ := h.ranked
  have hans := h.mem_of_root ha
  have hnokid : ∀ x ∈ ns, par x ≠ some a := by
    intro x hx hpx
    have := (h.kid a hans x).mpr ⟨hx, hpx⟩
    rw [hka] at this
    cases this
  refine ⟨hroots.nodup_iff.mpr (h.rootsNodup.erase a), ?_, ?_, ?_, ?_, rank, ?_⟩
  · intro x
    rw [hroots.mem_iff, h.rootsNodup.mem_erase_iff, h.root, Finset.mem_erase]
    constructor
    · rintro ⟨hxa, hx, hpx⟩
      exact ⟨⟨hxa, hx⟩, by rw [hpar x hx, hpx]⟩
    · rintro ⟨⟨hxa, hx⟩, hpx⟩
      exact ⟨hxa, hx, by rw [← hpar x hx, hpx]⟩
  · intro x hx
    replace hx := Finset.mem_of_mem_erase hx
    rw [hkids x hx]
    exact h.kidsNodup x hx
  · intro x hx y
    replace hx := Finset.mem_of_mem_erase hx
    rw [hkids x hx, h.kid x hx, Finset.mem_erase]
    constructor
    · rintro ⟨hy, hpy⟩
      have hya : y ≠ a := by
        rintro rfl
        rw [h.par_of_root ha] at hpy
        cases hpy
      exact ⟨⟨hya, hy⟩, by rw [hpar y hy, hpy]⟩
    · rintro ⟨⟨-, hy⟩, hpy⟩
      exact ⟨hy, by rw [← hpar y hy, hpy]⟩
  · intro x hx y hpx
    replace hx := Finset.mem_of_mem_erase hx
    rw [hpar x hx] at hpx
    refine Finset.mem_erase.mpr ⟨?_, h.parent x hx y hpx⟩
    rintro rfl
    exact hnokid x hx hpx
  · intro x hx y hpx
    replace hx := Finset.mem_of_mem_erase hx
    rw [hpar x hx] at hpx
    exact hrank x hx y hpx

/-- A root is removed; one of its children takes its place and takes over the
others. -/
theorem removeRoot (h : Forest ns roots par kids) (ha : a ∈ roots) (hc : c ∈ kids a)
    {others : List α} (hsplit : (kids a).Perm (c :: others))
    (hparc : par' c = none) (hparkid : ∀ x ∈ others, par' x = some c)
    (hpar : ∀ x ∈ ns, x ∉ kids a → par' x = par x)
    (hkidsc : kids' c = kids c ++ others)
    (hkids : ∀ x ∈ ns, x ≠ c → kids' x = kids x)
    (hroots : roots'.Perm (c :: roots.erase a)) :
    Forest (ns.erase a) roots' par' kids' := by
  obtain ⟨rank, hrank⟩ := h.ranked
  have hans := h.mem_of_root ha
  have hcns := h.mem_of_kid hans hc
  have hpc := h.par_of_kid hans hc
  have hca : c ≠ a := by
    rintro rfl
    exact Nat.lt_irrefl _ (hrank c hans c hpc)
  have hnd := hsplit.nodup_iff.mp (h.kidsNodup a hans)
  rw [List.nodup_cons] at hnd
  have hkid : ∀ x, x ∈ kids a ↔ x = c ∨ x ∈ others := by
    intro x
    rw [hsplit.mem_iff, List.mem_cons]
  have hcroots : c ∉ roots := by
    intro hmem
    rw [h.par_of_root hmem] at hpc
    cases hpc
  refine ⟨?_, ?_, ?_, ?_, ?_, fun x => if x = c then rank a else rank x, ?_⟩
  · refine hroots.nodup_iff.mpr (List.nodup_cons.mpr ⟨?_, h.rootsNodup.erase a⟩)
    exact fun hmem => hcroots (List.mem_of_mem_erase hmem)
  · intro x
    rw [hroots.mem_iff, List.mem_cons, h.rootsNodup.mem_erase_iff, h.root, Finset.mem_erase]
    constructor
    · rintro (rfl | ⟨hxa, hx, hpx⟩)
      · exact ⟨⟨hca, hcns⟩, hparc⟩
      · have hxk : x ∉ kids a := by
          intro hk
          rw [h.par_of_kid hans hk] at hpx
          cases hpx
        exact ⟨⟨hxa, hx⟩, by rw [hpar x hx hxk, hpx]⟩
    · rintro ⟨⟨hxa, hx⟩, hpx⟩
      by_cases hxk : x ∈ kids a
      · rcases (hkid x).mp hxk with rfl | hxo
        · exact Or.inl rfl
        · rw [hparkid x hxo] at hpx
          cases hpx
      · exact Or.inr ⟨hxa, hx, by rw [← hpar x hx hxk, hpx]⟩
  · intro x hx
    replace hx := Finset.mem_of_mem_erase hx
    by_cases hxc : x = c
    · subst hxc
      rw [hkidsc, List.nodup_append]
      refine ⟨h.kidsNodup x hx, hnd.2, ?_⟩
      rintro y hy z hz rfl
      have h₁ := h.par_of_kid hx hy
      have h₂ := h.par_of_kid hans ((hkid y).mpr (Or.inr hz))
      rw [h₁] at h₂
      exact hca (Option.some.inj h₂)
    · rw [hkids x hx hxc]
      exact h.kidsNodup x hx
  · intro x hx y
    obtain ⟨hxa, hx⟩ := Finset.mem_erase.mp hx
    rw [Finset.mem_erase]
    by_cases hxc : x = c
    · subst hxc
      rw [hkidsc, List.mem_append, h.kid x hx]
      constructor
      · rintro (⟨hy, hpy⟩ | hyo)
        · have hyk : y ∉ kids a := by
            intro hk
            rw [h.par_of_kid hans hk] at hpy
            exact hxa (Option.some.inj hpy).symm
          have hya : y ≠ a := by
            rintro rfl
            rw [h.par_of_root ha] at hpy
            cases hpy
          exact ⟨⟨hya, hy⟩, by rw [hpar y hy hyk, hpy]⟩
        · have hyk := (hkid y).mpr (Or.inr hyo)
          have hya : y ≠ a := by
            rintro rfl
            exact Nat.lt_irrefl _ (hrank y hans y (h.par_of_kid hans hyk))
          exact ⟨⟨hya, h.mem_of_kid hans hyk⟩, hparkid y hyo⟩
      · rintro ⟨⟨hya, hy⟩, hpy⟩
        by_cases hyk : y ∈ kids a
        · rcases (hkid y).mp hyk with rfl | hyo
          · rw [hparc] at hpy
            cases hpy
          · exact Or.inr hyo
        · exact Or.inl ⟨hy, by rw [← hpar y hy hyk, hpy]⟩
    · rw [hkids x hx hxc, h.kid x hx]
      constructor
      · rintro ⟨hy, hpy⟩
        have hyk : y ∉ kids a := by
          intro hk
          rw [h.par_of_kid hans hk] at hpy
          exact hxa (Option.some.inj hpy).symm
        have hya : y ≠ a := by
          rintro rfl
          rw [h.par_of_root ha] at hpy
          cases hpy
        exact ⟨⟨hya, hy⟩, by rw [hpar y hy hyk, hpy]⟩
      · rintro ⟨⟨-, hy⟩, hpy⟩
        by_cases hyk : y ∈ kids a
        · rcases (hkid y).mp hyk with rfl | hyo
          · rw [hparc] at hpy
            cases hpy
          · rw [hparkid y hyo] at hpy
            exact absurd (Option.some.inj hpy).symm hxc
        · exact ⟨hy, by rw [← hpar y hy hyk, hpy]⟩
  · intro x hx y hpx
    replace hx := Finset.mem_of_mem_erase hx
    rw [Finset.mem_erase]
    by_cases hxk : x ∈ kids a
    · rcases (hkid x).mp hxk with rfl | hxo
      · rw [hparc] at hpx
        cases hpx
      · rw [hparkid x hxo] at hpx
        cases hpx
        exact ⟨hca, hcns⟩
    · rw [hpar x hx hxk] at hpx
      refine ⟨?_, h.parent x hx y hpx⟩
      rintro rfl
      exact hxk ((h.kid y hans x).mpr ⟨hx, hpx⟩)
  · intro x hx y hpx
    replace hx := Finset.mem_of_mem_erase hx
    have hranka : ∀ z ∈ kids a, rank z < rank a :=
      fun z hz => hrank z (h.mem_of_kid hans hz) a (h.par_of_kid hans hz)
    beta_reduce
    by_cases hxk : x ∈ kids a
    · rcases (hkid x).mp hxk with rfl | hxo
      · rw [hparc] at hpx
        cases hpx
      · rw [hparkid x hxo] at hpx
        cases hpx
        have hxc : x ≠ c := fun heq => hnd.1 (heq ▸ hxo)
        rw [if_neg hxc, if_pos rfl]
        exact hranka x hxk
    · rw [hpar x hx hxk] at hpx
      have hlt := hrank x hx y hpx
      have hxc : x ≠ c := fun heq => hxk (heq ▸ hc)
      rw [if_neg hxc]
      by_cases hyc : y = c
      · subst hyc
        rw [if_pos rfl]
        exact hlt.trans (hranka y hc)
      · rwa [if_neg hyc]

end Forest
end LibHL
