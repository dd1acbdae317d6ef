import LibHL.Trie.Operations

/-!
# Destroying a node of a trie

`trie_node_destroy` frees the ancestors that only led to the node, clears the
branch below the first ancestor that stays, and frees everything below the node.
All cells that die lie below one key, and what is left is the trie without the
branch of that key.

The loops change the heap while they walk on it, so their lemmas compare the
current heap with the one at the start, in which the keys of the nodes are read.
-/

namespace LibHL
namespace Trie

variable {V : Type}

/-- A node whose key extends the given one. -/
def Below (nodes : Heap (TrieNode V)) (root : Addr) (p : List UInt8) (b : Addr) : Prop :=
  ∃ q, p <+: q ∧ walk nodes root q = some b

section Below

variable {nodes : Heap (TrieNode V)} {root a b : Addr} {p q : List UInt8} {c d : UInt8}

theorem below_of_walk (h : walk nodes root p = some a) : Below nodes root p a :=
  ⟨p, List.prefix_refl p, h⟩

theorem Below.of_initial (hpq : p <+: q) (h : Below nodes root q b) : Below nodes root p b := by
  obtain ⟨r, hqr, hr⟩ := h
  exact ⟨r, hpq.trans hqr, hr⟩

theorem Shape.prefix_of_below (h : Shape nodes root) (hq : walk nodes root q = some b)
    (hb : Below nodes root p b) : p <+: q := by
  obtain ⟨r, hpr, hr⟩ := hb
  rw [h.walk_inj hq hr]
  exact hpr

theorem not_prefix_of_snoc (p : List UInt8) (c : UInt8) : ¬ p ++ [c] <+: p := by
  intro hpre
  have hlen := hpre.length_le
  rw [List.length_append, List.length_singleton] at hlen
  omega

theorem Shape.not_below_snoc (h : Shape nodes root) (hp : walk nodes root p = some a) :
    ¬ Below nodes root (p ++ [c]) a :=
  fun hb => not_prefix_of_snoc p c (h.prefix_of_below hp hb)

theorem below_cases (hb : Below nodes root p b) (hp : walk nodes root p = some a) :
    b = a ∨ ∃ i, (childOf nodes a i).isSome ∧ Below nodes root (p ++ [i]) b := by
  obtain ⟨q, ⟨r, rfl⟩, hq⟩ := hb
  cases r with
  | nil =>
      rw [List.append_nil, hp] at hq
      exact Or.inl (Option.some.inj hq).symm
  | cons i r =>
      right
      rw [List.append_cons] at hq
      obtain ⟨x, hx⟩ := walk_initial (List.prefix_append _ _) hq
      refine ⟨i, ?_, p ++ [i] ++ r, List.prefix_append _ _, hq⟩
      rw [← walk_snoc_of_walk hp, hx]
      rfl

theorem Shape.not_below_of_ne (h : Shape nodes root) (hcd : c ≠ d)
    (hb : Below nodes root (p ++ [c]) b) : ¬ Below nodes root (p ++ [d]) b := by
  intro hb'
  obtain ⟨q, hq, hw⟩ := hb
  have hq' := h.prefix_of_below hw hb'
  have hle := List.prefix_of_prefix_length_le hq hq' (by simp)
  have heq := hle.eq_of_length (by simp)
  exact hcd (List.singleton_inj.mp (List.append_cancel_left heq))

end Below

/-! ## Everything below a node -/

/-- A call that kills the cells below a key and nothing else. -/
def KillsBelow (nodes : Heap (TrieNode V)) (root : Addr) (p : List UInt8) (trie trie' : Trie V) :
    Prop :=
  trie'.root = trie.root ∧
  (∀ b, Below nodes root p b → trie'.nodes b = none) ∧
  ∀ b, ¬ Below nodes root p b → trie'.nodes b = trie.nodes b

theorem clearChild_eq {trie : Trie V} {a : Addr} {n : TrieNode V} {i : UInt8}
    (hn : trie.nodes a = some n) (hi : i < 128) :
    clearChild trie (some a) i = some { trie with
      nodes := trie.nodes.put a
        { n.setChild i none with numChildren := n.numChildren - 1 } } := by
  have hidx : childIndex i = some i := if_pos hi
  simp [clearChild, hidx, Heap.modify_eq_some _ hn]

theorem freeNode_eq {trie : Trie V} {a : Addr} {n : TrieNode V} (hn : trie.nodes a = some n)
    (cb : Bool) :
    ∃ trie', freeNode trie a cb = some trie' ∧ trie'.root = trie.root ∧
      trie'.nodes = trie.nodes.kill a := by
  refine ⟨{ releaseValue trie n cb with
    nodes := trie.nodes.kill a
    count := if n.value.isSome then (releaseValue trie n cb).count - 1
      else (releaseValue trie n cb).count
    nodeCount := (releaseValue trie n cb).nodeCount - 1 }, ?_, releaseValue_root trie n cb, rfl⟩
  simp [freeNode, hn, Heap.free_eq_some hn]

section DestroyBelow

variable {nodes : Heap (TrieNode V)} {root a : Addr} {p : List UInt8}

/-- The loop over the children kills the cells below them. -/
theorem Shape.destroyChildren_spec (h : Shape nodes root) (hp : walk nodes root p = some a)
    {destroy : Trie V → Addr → Option (Trie V)}
    (hdestroy : ∀ trie i b m, childOf nodes a i = some b → nodes b = some m →
      trie.nodes b = some { m with parent := none } →
      (∀ x, Below nodes root (p ++ [i]) x → x ≠ b → trie.nodes x = nodes x) →
      ∃ trie', destroy trie b = some trie' ∧ KillsBelow nodes root (p ++ [i]) trie trie') :
    ∀ (is : List UInt8) (trie : Trie V) (n : TrieNode V), is.Nodup → trie.nodes a = some n →
      (∀ i ∈ is, n.child i = childOf nodes a i) →
      (∀ i ∈ is, ∀ x, Below nodes root (p ++ [i]) x → trie.nodes x = nodes x) →
      ∃ trie' n', destroyChildren destroy a trie is = some trie' ∧ trie'.root = trie.root ∧
        trie'.nodes a = some n' ∧
        (∀ x i, i ∈ is → Below nodes root (p ++ [i]) x → trie'.nodes x = none) ∧
        ∀ x, x ≠ a → (∀ i ∈ is, ¬ Below nodes root (p ++ [i]) x) →
          trie'.nodes x = trie.nodes x := by
  intro is
  induction is with
  | nil =>
      intro trie n _ hn _ _
      exact ⟨trie, n, rfl, rfl, hn, nofun, fun x _ _ => rfl⟩
  | cons i is ih =>
      intro trie n hnd hn hchild hsame
      obtain ⟨hi, hnd⟩ := List.nodup_cons.mp hnd
      have hci := hchild i List.mem_cons_self
      cases hc : n.child i with
      | none =>
          have hempty : ∀ x, ¬ Below nodes root (p ++ [i]) x := by
            rintro x ⟨q, hq, hw⟩
            obtain ⟨y, hy⟩ := walk_initial hq hw
            rw [walk_snoc_of_walk hp, ← hci, hc] at hy
            cases hy
          obtain ⟨trie', n', heq, hroot, hn', hdead, hkept⟩ := ih trie n hnd hn
            (fun j hj => hchild j (List.mem_cons_of_mem i hj))
            (fun j hj => hsame j (List.mem_cons_of_mem i hj))
          refine ⟨trie', n', ?_, hroot, hn', ?_, ?_⟩
          · simp only [destroyChildren, hn, Option.bind_eq_bind, Option.bind_some, hc]
            exact heq
          · intro x j hj hx
            rcases List.mem_cons.mp hj with rfl | hj
            · exact absurd hx (hempty x)
            · exact hdead x j hj hx
          · exact fun x hx hnot => hkept x hx fun j hj => hnot j (List.mem_cons_of_mem i hj)
      | some b =>
          have hcb : childOf nodes a i = some b := by rw [← hci, hc]
          have hwb : walk nodes root (p ++ [i]) = some b := by rw [walk_snoc_of_walk hp, hcb]
          obtain ⟨m, hm⟩ := h.exists_of_walk hwb
          have hbelow : Below nodes root (p ++ [i]) b := below_of_walk hwb
          have hbm : trie.nodes b = some m := by
            rw [hsame i List.mem_cons_self b hbelow, hm]
          have hab : a ≠ b := (h.lt_of_childOf hcb).2.ne
          let trie₁ : Trie V := { trie with nodes := trie.nodes.put b { m with parent := none } }
          obtain ⟨trie₂, hd, hroot₂, hdead₂, hkept₂⟩ := hdestroy trie₁ i b m hcb hm
            (Heap.put_self hbm) (by
              intro x hx hxb
              rw [← hsame i List.mem_cons_self x hx]
              exact Heap.put_of_ne hxb)
          have hout : ∀ x, ¬ Below nodes root (p ++ [i]) x → trie₂.nodes x = trie.nodes x := by
            intro x hx
            rw [hkept₂ x hx]
            refine Heap.put_of_ne ?_
            rintro rfl
            exact hx hbelow
          have hn₂ : trie₂.nodes a = some n := by rw [hout a (h.not_below_snoc hp), hn]
          have hclear := clearChild_eq hn₂ (h.lt_of_childOf hcb).1
          obtain ⟨trie', n', heq, hroot, hn', hdead, hkept⟩ := ih
            { trie₂ with
              nodes := trie₂.nodes.put a
                { n.setChild i none with numChildren := n.numChildren - 1 } }
            { n.setChild i none with numChildren := n.numChildren - 1 } hnd
            (Heap.put_self hn₂)
            (by
              intro j hj
              have hji : j ≠ i := by
                rintro rfl
                exact hi hj
              rw [← hchild j (List.mem_cons_of_mem i hj)]
              exact setChild_child_of_ne _ hji)
            (by
              intro j hj x hx
              have hji : j ≠ i := by
                rintro rfl
                exact hi hj
              have hxa : x ≠ a := by
                rintro rfl
                exact h.not_below_snoc hp hx
              rw [← hsame j (List.mem_cons_of_mem i hj) x hx, ← hout x (h.not_below_of_ne hji hx)]
              exact Heap.put_of_ne hxa)
          refine ⟨trie', n', ?_, hroot.trans hroot₂, hn', ?_, ?_⟩
          · simp only [destroyChildren, hn, Option.bind_eq_bind, Option.bind_some, hc,
              Heap.modify_eq_some _ hbm]
            rw [hd, Option.bind_some, hclear]
            exact heq
          · intro x j hj hx
            rcases List.mem_cons.mp hj with rfl | hj
            · by_cases hlater : ∃ k ∈ is, Below nodes root (p ++ [k]) x
              · obtain ⟨k, hk, hxk⟩ := hlater
                exact hdead x k hk hxk
              · have hxa : x ≠ a := by
                  rintro rfl
                  exact h.not_below_snoc hp hx
                rw [hkept x hxa fun k hk hxk => hlater ⟨k, hk, hxk⟩]
                exact (Heap.put_of_ne hxa).trans (hdead₂ x hx)
            · exact hdead x j hj hx
          · intro x hxa hnot
            rw [hkept x hxa fun j hj => hnot j (List.mem_cons_of_mem i hj)]
            exact (Heap.put_of_ne hxa).trans (hout x (hnot i List.mem_cons_self))

/-- The second half of `trie_node_destroy`: the children, then the node itself. -/
theorem Shape.destroyNode_spec (h : Shape nodes root) (hp : walk nodes root p = some a)
    (destroy : Trie V → Addr → Option (Trie V))
    (hdestroy : ∀ trie i b m, childOf nodes a i = some b → nodes b = some m →
      trie.nodes b = some { m with parent := none } →
      (∀ x, Below nodes root (p ++ [i]) x → x ≠ b → trie.nodes x = nodes x) →
      ∃ trie', destroy trie b = some trie' ∧ KillsBelow nodes root (p ++ [i]) trie trie')
    (trie : Trie V) {n : TrieNode V} (hn : trie.nodes a = some n)
    (hchild : ∀ i, n.child i = childOf nodes a i)
    (hsame : ∀ x, Below nodes root p x → x ≠ a → trie.nodes x = nodes x) (cb : Bool) :
    ∃ trie', (destroyChildren destroy a trie childIndices).bind (freeNode · a cb) = some trie' ∧
      KillsBelow nodes root p trie trie' := by
  obtain ⟨trie₁, n₁, heq₁, hroot₁, hn₁, hdead₁, hkept₁⟩ :=
    h.destroyChildren_spec hp hdestroy childIndices trie n nodup_childIndices hn
      (fun i _ => hchild i) (by
        intro i _ x hx
        refine hsame x (hx.of_initial (List.prefix_append p [i])) ?_
        rintro rfl
        exact h.not_below_snoc hp hx)
  obtain ⟨trie₂, heq₂, hroot₂, hnodes₂⟩ := freeNode_eq hn₁ cb
  refine ⟨trie₂, ?_, hroot₂.trans hroot₁, ?_, ?_⟩
  · rw [heq₁, Option.bind_some, heq₂]
  · intro x hx
    rw [hnodes₂, Heap.kill_apply]
    by_cases hxa : x = a
    · rw [if_pos hxa]
    · rw [if_neg hxa]
      rcases below_cases hx hp with rfl | ⟨i, -, hi⟩
      · exact absurd rfl hxa
      · exact hdead₁ x i (mem_childIndices i) hi
  · intro x hx
    have hxa : x ≠ a := by
      rintro rfl
      exact hx (below_of_walk hp)
    rw [hnodes₂, Heap.kill_apply, if_neg hxa]
    exact hkept₁ x hxa fun i _ hi => hx (hi.of_initial (List.prefix_append p [i]))

/-- `trie_node_destroy` on a node without parent kills the cells below it.  The
addresses grow towards the leaves, which bounds the depth of the recursion. -/
theorem Shape.trieNodeDestroy_orphan (h : Shape nodes root) (cb : Bool) :
    ∀ (fuel : ℕ) {p : List UInt8} {a : Addr} {n : TrieNode V} {trie : Trie V},
      walk nodes root p = some a → nodes.brk ≤ fuel + a → nodes a = some n →
      trie.nodes a = some { n with parent := none } →
      (∀ x, Below nodes root p x → x ≠ a → trie.nodes x = nodes x) →
      ∃ trie', trieNodeDestroy cb fuel trie a = some trie' ∧
        KillsBelow nodes root p trie trie' := by
  intro fuel
  induction fuel with
  | zero =>
      intro p a n trie _ hfuel hn _ _
      have hlt := Heap.lt_brk_of_eq_some hn
      rw [Nat.zero_add] at hfuel
      exact absurd hlt (Nat.not_lt.mpr hfuel)
  | succ fuel ih =>
      intro p a n trie hp hfuel hn hna hsame
      obtain ⟨trie', heq, hkills⟩ := h.destroyNode_spec hp
        (trieNodeDestroy cb fuel) (by
          intro trie i b m hb hm hbm hbelow
          have hstep : fuel + 1 + a ≤ fuel + b := by
            rw [Nat.add_assoc, Nat.add_comm 1]
            exact Nat.add_le_add_left (h.lt_of_childOf hb).2 fuel
          refine ih ?_ (hfuel.trans hstep) hm hbm hbelow
          rw [walk_snoc_of_walk hp, hb])
        trie hna (fun i => (childOf_of_eq_some hn i).symm) hsame cb
      refine ⟨trie', ?_, hkills⟩
      rw [trieNodeDestroy]
      simp only [hna, Option.bind_eq_bind, Option.bind_some]
      rw [freeEmptyParents]
      simp only [Option.bind_some, clearChild]
      exact heq

end DestroyBelow

/-! ## The ancestors -/

section Ancestors

variable {nodes : Heap (TrieNode V)} {root a x : Addr} {p : List UInt8} {c : UInt8}

/-- A node with no value and no child off the way to a key. -/
def OnlyLeadsTo (nodes : Heap (TrieNode V)) (root : Addr) (q p : List UInt8) : Prop :=
  ∃ y m, walk nodes root q = some y ∧ nodes y = some m ∧ m.value = none ∧
    ∀ d, (m.child d).isSome → q ++ [d] <+: p

/-- A node with at most one child has no other child than the given one. -/
theorem Shape.child_unique (h : Shape nodes root) {m : TrieNode V} (hx : nodes x = some m)
    (hnum : ¬ 1 < m.numChildren) (hc : (m.child c).isSome) {d : UInt8}
    (hd : (m.child d).isSome) : d = c := by
  have hcard : (childSet m).card ≤ 1 := by
    have := h.numChildren x m hx
    omega
  exact Finset.card_le_one.mp hcard d (mem_childSet.mpr hd) c (mem_childSet.mpr hc)

theorem Shape.parent_of_walk (h : Shape nodes root) {n : TrieNode V}
    (hp : walk nodes root (p ++ [c]) = some a) (hn : nodes a = some n) :
    ∃ x, walk nodes root p = some x ∧ childOf nodes x c = some a ∧ n.parent = some x ∧
      n.pidx = c := by
  rw [walk_snoc, Option.bind_eq_some_iff] at hp
  obtain ⟨x, hx, hxa⟩ := hp
  obtain ⟨m, hm, hmc⟩ := Option.bind_eq_some_iff.mp hxa
  obtain ⟨n', hn', hpar, hidx⟩ := h.child x m c a hm hmc
  rw [hn] at hn'
  cases hn'
  exact ⟨x, hx, hxa, hpar, hidx⟩

/-- The root, and the nodes with a value or with several children, stay when a branch below
them goes. -/
def Stays (nodes : Heap (TrieNode V)) (root y : Addr) : Prop :=
  y = root ∨ ∃ m, nodes y = some m ∧ (m.value.isSome ∨ 1 < m.numChildren)

/-- The loop over the ancestors stops below a node that stays.  The cells it frees are
those of the keys from `top ++ [t]` up to the key of the parent, and these nodes only
lead to the node that is destroyed. -/
theorem Shape.freeEmptyParents_spec (h : Shape nodes root) :
    ∀ (fuel : ℕ) {p : List UInt8} {c : UInt8} {x : Addr} {trie : Trie V},
      walk nodes root p = some x → (childOf nodes x c).isSome → x < fuel →
      trie.root = root → (∀ q y, q <+: p → walk nodes root q = some y → trie.nodes y = nodes y) →
      ∃ trie' top t y, freeEmptyParents fuel trie (some x) c = some (trie', some y, t) ∧
        trie'.root = trie.root ∧ walk nodes root top = some y ∧ Stays nodes root y ∧
        top ++ [t] <+: p ++ [c] ∧
        (∀ q, top ++ [t] <+: q → q <+: p → OnlyLeadsTo nodes root q (p ++ [c])) ∧
        (∀ q z, top ++ [t] <+: q → q <+: p → walk nodes root q = some z →
          trie'.nodes z = none) ∧
        ∀ z, (∀ q, top ++ [t] <+: q → q <+: p → walk nodes root q ≠ some z) →
          trie'.nodes z = trie.nodes z := by
  intro fuel
  induction fuel with
  | zero =>
      intro p c x trie _ _ hfuel
      exact absurd hfuel (Nat.not_lt_zero x)
  | succ fuel ih =>
      intro p c x trie hp hc hfuel hroot hsame
      -- The parent stays: nothing is freed from here on.
      have hstay : Stays nodes root x →
          ∃ trie' top t y, some (trie, some x, c) = some (trie', some y, t) ∧
          trie'.root = trie.root ∧ walk nodes root top = some y ∧ Stays nodes root y ∧
          top ++ [t] <+: p ++ [c] ∧
          (∀ q, top ++ [t] <+: q → q <+: p → OnlyLeadsTo nodes root q (p ++ [c])) ∧
          (∀ q z, top ++ [t] <+: q → q <+: p → walk nodes root q = some z →
            trie'.nodes z = none) ∧
          ∀ z, (∀ q, top ++ [t] <+: q → q <+: p → walk nodes root q ≠ some z) →
            trie'.nodes z = trie.nodes z := by
        intro hx
        refine ⟨trie, p, c, x, rfl, rfl, hp, hx, List.prefix_refl _, ?_, ?_, fun z _ => rfl⟩
        · intro q hq hqp
          exact absurd (hq.trans hqp) (not_prefix_of_snoc p c)
        · intro q z hq hqp
          exact absurd (hq.trans hqp) (not_prefix_of_snoc p c)
      by_cases hxroot : x = trie.root
      · rw [freeEmptyParents, if_pos hxroot]
        exact hstay (Or.inl (hxroot.trans hroot))
      · obtain ⟨n, hn⟩ := h.exists_of_walk hp
        have hxn : trie.nodes x = some n := by rw [hsame p x (List.prefix_refl p) hp, hn]
        rw [freeEmptyParents, if_neg hxroot]
        simp only [hxn, Option.bind_eq_bind, Option.bind_some]
        by_cases hkeep : n.value.isSome ∨ 1 < n.numChildren
        · rw [if_pos hkeep]
          exact hstay (Or.inr ⟨n, hn, hkeep⟩)
        · rw [if_neg hkeep, Heap.free_eq_some hxn, Option.bind_some]
          obtain ⟨hvalue, hnum⟩ := not_or.mp hkeep
          induction p using List.reverseRecOn with
          | nil =>
              cases hp
              exact absurd hroot.symm hxroot
          | append_singleton p d _ =>
              obtain ⟨w, hw, hwx, hpar, hidx⟩ := h.parent_of_walk hp hn
              have hlt : w < x := (h.lt_of_childOf hwx).2
              let trie₁ : Trie V := { trie with
                nodes := trie.nodes.kill x
                nodeCount := trie.nodeCount - 1 }
              have hleads : OnlyLeadsTo nodes root (p ++ [d]) (p ++ [d] ++ [c]) := by
                refine ⟨x, n, hp, hn, Option.not_isSome_iff_eq_none.mp hvalue, ?_⟩
                intro e he
                rw [childOf_of_eq_some hn] at hc
                rw [h.child_unique hn hnum hc he]
              obtain ⟨trie', top, t, y, heq, hroot', hy, hstays, htop, honly, hdead, hkept⟩ :=
                @ih _ _ _ trie₁ hw (by rw [hwx]; rfl)
                  (Nat.lt_of_lt_of_le hlt (Nat.le_of_lt_succ hfuel)) hroot (by
                  intro q z hq hz
                  rw [← hsame q z (hq.trans (List.prefix_append p [d])) hz]
                  have hzx : z ≠ x := by
                    rintro rfl
                    rw [h.walk_inj hz hp] at hq
                    exact not_prefix_of_snoc p d hq
                  exact (Heap.kill_apply trie.nodes x z).trans (if_neg hzx))
              rw [hpar, hidx]
              have hup : ∀ q, q <+: p ++ [d] → q = p ++ [d] ∨ q <+: p := by
                intro q hq
                exact List.prefix_concat_iff.mp hq
              refine ⟨trie', top, t, y, heq, hroot', hy, hstays, ?_, ?_, ?_, ?_⟩
              · exact htop.trans (List.prefix_append _ _)
              · intro q hq hqp
                rcases hup q hqp with rfl | hqp
                · exact hleads
                · obtain ⟨z, m, hz, hm, hval, hchild⟩ := honly q hq hqp
                  exact ⟨z, m, hz, hm, hval,
                    fun e he => (hchild e he).trans (List.prefix_append _ _)⟩
              · intro q z hq hqp hz
                rcases hup q hqp with rfl | hqp
                · rw [hp] at hz
                  cases hz
                  have hnot : ∀ q, top ++ [t] <+: q → q <+: p → walk nodes root q ≠ some x := by
                    intro q _ hqp hqx
                    rw [h.walk_inj hqx hp] at hqp
                    exact not_prefix_of_snoc p d hqp
                  rw [hkept x hnot]
                  exact (Heap.kill_apply trie.nodes x x).trans (if_pos rfl)
                · exact hdead q z hq hqp hz
              · intro z hz
                rw [hkept z fun q hq hqp => hz q hq (hqp.trans (List.prefix_append p [d]))]
                have hzx : z ≠ x := by
                  rintro rfl
                  exact hz (p ++ [d]) htop (List.prefix_refl _) hp
                exact (Heap.kill_apply trie.nodes x z).trans (if_neg hzx)

/-- Below a key whose nodes only lead to another one, every node lies on the way to
that one or below it. -/
theorem below_top {top : List UInt8} (htop : top <+: p ++ [c])
    (honly : ∀ q, top <+: q → q <+: p → OnlyLeadsTo nodes root q (p ++ [c])) :
    ∀ (q : List UInt8) (b : Addr), top <+: q → walk nodes root q = some b →
      q <+: p ∨ p ++ [c] <+: q := by
  intro q
  induction q using List.reverseRecOn with
  | nil =>
      intro b _ _
      exact Or.inl List.nil_prefix
  | append_singleton q d ih =>
      intro b hq hb
      rcases List.prefix_concat_iff.mp hq with rfl | hq
      · rcases List.prefix_concat_iff.mp htop with heq | hpre
        · exact Or.inr (by rw [heq])
        · exact Or.inl hpre
      · obtain ⟨x, hx⟩ := walk_initial (List.prefix_append q [d]) hb
        rcases ih x hq hx with hqp | hpq
        · obtain ⟨y, m, hy, hm, -, hchild⟩ := honly q hq hqp
          have hd : (m.child d).isSome := by
            rw [walk_snoc_of_walk hy, childOf_of_eq_some hm] at hb
            rw [hb]
            rfl
          rcases List.prefix_concat_iff.mp (hchild d hd) with heq | hpre
          · exact Or.inr (by rw [heq])
          · exact Or.inl hpre
        · exact Or.inr (hpq.trans (List.prefix_append q [d]))

end Ancestors

/-! ## The trie without a branch -/

/-- The cells of a trie from which the branch of one key was cut off. -/
structure CutAt (nodes nodes' : Heap (TrieNode V)) (root y : Addr) (top : List UInt8) (t : UInt8) :
    Prop where
  dead : ∀ b, Below nodes root (top ++ [t]) b → nodes' b = none
  parent : ∃ n, nodes y = some n ∧
    nodes' y = some { n.setChild t none with numChildren := n.numChildren - 1 }
  kept : ∀ b, b ≠ y → ¬ Below nodes root (top ++ [t]) b → nodes' b = nodes b

namespace CutAt

variable {nodes nodes' : Heap (TrieNode V)} {root y : Addr} {top : List UInt8} {t : UInt8}

theorem childOf_eq (hcut : CutAt nodes nodes' root y top t) {x : Addr} {d : UInt8}
    (hx : ¬ Below nodes root (top ++ [t]) x) (hne : x ≠ y ∨ d ≠ t) :
    childOf nodes' x d = childOf nodes x d := by
  by_cases hxy : x = y
  · subst hxy
    obtain ⟨n, hn, hn'⟩ := hcut.parent
    rw [childOf_of_eq_some hn', childOf_of_eq_some hn]
    exact setChild_child_of_ne _ (hne.resolve_left fun h => h rfl)
  · rw [childOf, childOf, hcut.kept x hxy hx]

/-- A cut removes the walks of the keys that extend the key of the branch. -/
theorem walk_eq (hcut : CutAt nodes nodes' root y top t) (h : Shape nodes root)
    (htop : walk nodes root top = some y) (key : List UInt8) :
    walk nodes' root key = if top ++ [t] <+: key then none else walk nodes root key := by
  refine walk_eq_of_snoc (fun key => if top ++ [t] <+: key then none
    else walk nodes root key) ?_ ?_ key
  · rw [if_neg (by simp)]
    rfl
  · intro q d
    by_cases hq : top ++ [t] <+: q
    · rw [if_pos (hq.trans (List.prefix_append q [d])), if_pos hq]
      rfl
    · rw [if_neg hq]
      cases hw : walk nodes root q with
      | none => simp [walk_snoc, hw]
      | some x =>
          have hx : ¬ Below nodes root (top ++ [t]) x := fun hb => hq (h.prefix_of_below hw hb)
          rw [Option.bind_some, walk_snoc_of_walk hw]
          by_cases hqd : top ++ [t] <+: q ++ [d]
          · rw [if_pos hqd]
            rcases List.prefix_concat_iff.mp hqd with heq | hpre
            · obtain ⟨rfl, htd⟩ := List.append_inj' heq rfl
              cases htd
              rw [htop] at hw
              cases hw
              obtain ⟨n, -, hn'⟩ := hcut.parent
              rw [childOf_of_eq_some hn']
              exact (setChild_child_self n t none).symm
            · exact absurd hpre hq
          · rw [if_neg hqd]
            refine (hcut.childOf_eq hx ?_).symm
            by_contra hcon
            obtain ⟨rfl, rfl⟩ := not_or.mp hcon |>.imp not_not.mp not_not.mp
            rw [h.walk_inj hw htop] at hqd
            exact hqd (List.prefix_refl _)

theorem valueAt_eq (hcut : CutAt nodes nodes' root y top t) (h : Shape nodes root)
    (htop : walk nodes root top = some y) (key : List UInt8) :
    valueAt nodes' root key =
      if top ++ [t] <+: key then none else valueAt nodes root key := by
  have hwalk := hcut.walk_eq h htop key
  by_cases hkey : top ++ [t] <+: key
  · rw [if_pos hkey] at hwalk
    rw [if_pos hkey, valueAt_of_walk_none hwalk]
  · rw [if_neg hkey] at hwalk
    rw [if_neg hkey]
    cases hw : walk nodes root key with
    | none => rw [valueAt_of_walk_none (hwalk.trans hw), valueAt_of_walk_none hw]
    | some x =>
        obtain ⟨m, hm⟩ := h.exists_of_walk hw
        have hx : ¬ Below nodes root (top ++ [t]) x := fun hb => hkey (h.prefix_of_below hw hb)
        rw [valueAt_of_walk hw hm]
        by_cases hxy : x = y
        · subst hxy
          obtain ⟨n, hn, hn'⟩ := hcut.parent
          rw [hn] at hm
          cases hm
          rw [valueAt_of_walk (hwalk.trans hw) hn']
          rfl
        · exact valueAt_of_walk (hwalk.trans hw) ((hcut.kept x hxy hx).trans hm)

/-- A node that is left was a live node outside of the branch. -/
theorem back (hcut : CutAt nodes nodes' root y top t) {b : Addr} {m' : TrieNode V}
    (hm' : nodes' b = some m') :
    ¬ Below nodes root (top ++ [t]) b ∧ ∃ m, nodes b = some m ∧ m'.parent = m.parent ∧
      m'.pidx = m.pidx ∧ (b ≠ y → m' = m) ∧
      (b = y → m' = { m.setChild t none with numChildren := m.numChildren - 1 }) := by
  have hb : ¬ Below nodes root (top ++ [t]) b := by
    intro hbelow
    rw [hcut.dead b hbelow] at hm'
    cases hm'
  refine ⟨hb, ?_⟩
  by_cases hby : b = y
  · subst hby
    obtain ⟨n, hn, hn'⟩ := hcut.parent
    rw [hm'] at hn'
    cases hn'
    exact ⟨n, hn, rfl, rfl, fun hne => absurd rfl hne, fun _ => rfl⟩
  · rw [hcut.kept b hby hb] at hm'
    exact ⟨m', hm', rfl, rfl, fun _ => rfl, fun heq => absurd heq hby⟩

/-- A live node outside of the branch is left, with its parent. -/
theorem forth (hcut : CutAt nodes nodes' root y top t) {b : Addr} {m : TrieNode V}
    (hm : nodes b = some m) (hb : ¬ Below nodes root (top ++ [t]) b) :
    ∃ m', nodes' b = some m' ∧ m'.parent = m.parent ∧ m'.pidx = m.pidx := by
  by_cases hby : b = y
  · subst hby
    obtain ⟨n, hn, hn'⟩ := hcut.parent
    rw [hn] at hm
    cases hm
    exact ⟨_, hn', rfl, rfl⟩
  · exact ⟨m, (hcut.kept b hby hb).trans hm, rfl, rfl⟩

/-- A child that is left was a child before. -/
theorem childOf_back (hcut : CutAt nodes nodes' root y top t) {a b : Addr} {d : UInt8}
    (hb : childOf nodes' a d = some b) :
    ¬ Below nodes root (top ++ [t]) a ∧ (a ≠ y ∨ d ≠ t) ∧ childOf nodes a d = some b := by
  obtain ⟨n', hn', hd⟩ := Option.bind_eq_some_iff.mp hb
  obtain ⟨ha, n, hn, -, -, -, heq⟩ := hcut.back hn'
  have hne : a ≠ y ∨ d ≠ t := by
    by_contra hcon
    obtain ⟨rfl, rfl⟩ := not_or.mp hcon |>.imp not_not.mp not_not.mp
    rw [heq rfl] at hd
    exact absurd ((setChild_child_self n d none).symm.trans hd) nofun
  refine ⟨ha, hne, ?_⟩
  rw [← hcut.childOf_eq ha hne]
  exact hb

theorem shape (hcut : CutAt nodes nodes' root y top t) (h : Shape nodes root)
    (htop : walk nodes root top = some y) (ht : (childOf nodes y t).isSome) :
    Shape nodes' root := by
  -- A child that is left is not below the branch, for then its parent would be.
  have hout : ∀ a d b, childOf nodes' a d = some b → ¬ Below nodes root (top ++ [t]) b := by
    rintro a d b hb ⟨q, hq, hw⟩
    obtain ⟨ha, hne, hold⟩ := hcut.childOf_back hb
    induction q using List.reverseRecOn with
    | nil => simp at hq
    | append_singleton q e _ =>
        rw [walk_snoc, Option.bind_eq_some_iff] at hw
        obtain ⟨x, hx, hxb⟩ := hw
        obtain ⟨rfl, rfl⟩ := h.childOf_inj hxb hold
        rcases List.prefix_concat_iff.mp hq with heq | hpre
        · obtain ⟨rfl, hte⟩ := List.append_inj' heq rfl
          cases hte
          rw [htop] at hx
          cases hx
          exact hne.elim (fun hn => hn rfl) fun hn => hn rfl
        · exact ha ⟨q, hpre, hx⟩
  constructor
  · obtain ⟨r, hr, hpar⟩ := h.root
    have hroot : ¬ Below nodes root (top ++ [t]) root := by
      intro hb
      have hpre := h.prefix_of_below (q := []) rfl hb
      simp at hpre
    obtain ⟨r', hr', hpar', -⟩ := hcut.forth hr hroot
    exact ⟨r', hr', hpar'.trans hpar⟩
  · intro a n' d b hn' hd
    have hb : childOf nodes' a d = some b := by rw [childOf_of_eq_some hn', hd]
    obtain ⟨-, -, hold⟩ := hcut.childOf_back hb
    obtain ⟨n, hn, hnd⟩ := Option.bind_eq_some_iff.mp hold
    obtain ⟨m, hm, hpar, hidx⟩ := h.child a n d b hn hnd
    obtain ⟨m', hm', hpar', hidx'⟩ := hcut.forth hm (hout a d b hb)
    exact ⟨m', hm', hpar'.trans hpar, hidx'.trans hidx⟩
  · intro a n' d b hn' hd
    have hb : childOf nodes' a d = some b := by rw [childOf_of_eq_some hn', hd]
    exact h.lt_of_childOf (hcut.childOf_back hb).2.2
  · intro b m' a hm' hpar'
    obtain ⟨hb, m, hm, hpar, hidx, -⟩ := hcut.back hm'
    obtain ⟨n, hn, hnc⟩ := h.parent b m a hm (hpar.symm.trans hpar')
    have hold : childOf nodes a m.pidx = some b := by rw [childOf_of_eq_some hn, hnc]
    have ha : ¬ Below nodes root (top ++ [t]) a := by
      rintro ⟨q, hq, hw⟩
      refine hb ⟨q ++ [m.pidx], hq.trans (List.prefix_append _ _), ?_⟩
      rw [walk_snoc_of_walk hw, hold]
    have hne : a ≠ y ∨ m.pidx ≠ t := by
      by_contra hcon
      obtain ⟨rfl, heq⟩ := not_or.mp hcon |>.imp not_not.mp not_not.mp
      refine hb (below_of_walk ?_)
      rw [walk_snoc_of_walk htop, ← heq, hold]
    have hnew := (hcut.childOf_eq ha hne).trans hold
    obtain ⟨n', hn', hnc'⟩ := Option.bind_eq_some_iff.mp hnew
    exact ⟨n', hn', by rw [hidx, hnc']⟩
  · intro a n' hn'
    obtain ⟨-, n, hn, -, -, hsame, hcutoff⟩ := hcut.back hn'
    have hnum := h.numChildren a n hn
    by_cases hay : a = y
    · subst hay
      rw [childOf_of_eq_some hn] at ht
      have hset : childSet n' = (childSet n).erase t := by
        rw [hcutoff rfl, ← childSet_setChild_none]
        exact childSet_congr rfl
      have hpos : 0 < (childSet n).card := Finset.card_pos.mpr ⟨t, mem_childSet.mpr ht⟩
      have hval : n'.numChildren = n.numChildren - 1 := by rw [hcutoff rfl]
      rw [hset, Finset.card_erase_of_mem (mem_childSet.mpr ht), hval]
      omega
    · rw [hsame hay]
      exact hnum

end CutAt

end Trie
end LibHL
