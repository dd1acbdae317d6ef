import LibHL.LinkedList.Model
import LibHL.Support.Linked

/-!
# The representation invariant of the linked list

`Represents l ps xs` says that the list `l` is the chain of the entries at the
addresses `ps`, whose values are `xs` in order, and that the cursor is either
unset or the entry at the recorded position.  The lookup of `pick_entry` is
then exact, whichever of its three starting points it takes.
-/

namespace LibHL
namespace LinkedList

variable {V : Type}

/-- The two pointers stored in an entry. -/
def links (es : Heap (ListEntry V)) (a : Addr) : Option Links :=
  (es a).map fun e => ⟨e.prev, e.next⟩

/-- The value stored in an entry. -/
def valueAt (es : Heap (ListEntry V)) (a : Addr) : Option (Option V) :=
  (es a).map ListEntry.value

/-- An allocated entry that is linked nowhere. -/
def Loose (es : Heap (ListEntry V)) (a : Addr) (v : Option V) : Prop :=
  es a = some { list := false, prev := none, next := none, value := v }

/-- The list is the chain `ps` of entries with values `xs`, and its cursor is
coherent. -/
structure Represents (l : LinkedList V) (ps : List Addr) (xs : List (Option V)) :
    Prop where
  linked : DLinked (links l.entries) ps
  values : ps.map (valueAt l.entries) = xs.map some
  head : l.head = ps[0]?
  tail : l.tail = before ps ps.length
  length : l.length = ps.length
  cursor : ∀ a, l.cur = some a → ps[l.pos]? = some a

theorem represents_listCreate :
    Represents (listCreate : LinkedList V) [] [] where
  linked := DLinked.nil _
  values := rfl
  head := rfl
  tail := rfl
  length := rfl
  cursor := by simp [listCreate]

namespace Represents

variable {l : LinkedList V} {ps : List Addr} {xs : List (Option V)}

theorem length_eq (h : Represents l ps xs) : xs.length = ps.length := by
  simpa using (congrArg List.length h.values).symm

theorem listCount_eq (h : Represents l ps xs) : l.listCount = xs.length :=
  h.length.trans h.length_eq.symm

/-- The entry at a position of the chain, with the fields it must hold. -/
theorem entry_at (h : Represents l ps xs) {i : ℕ} {a : Addr}
    (ha : ps[i]? = some a) :
    ∃ e, l.entries a = some e ∧ e.prev = before ps i ∧ e.next = ps[i + 1]? ∧
      xs[i]? = some e.value := by
  have hlinks := h.linked.links i a ha
  obtain ⟨e, he, heq⟩ := Option.map_eq_some_iff.mp hlinks
  simp only [Links.mk.injEq] at heq
  refine ⟨e, he, heq.1, heq.2, ?_⟩
  have hval := congrArg (fun vs => vs[i]?) h.values
  simp only [List.getElem?_map, ha, Option.map_some, valueAt, he] at hval
  cases hx : xs[i]? with
  | none => simp [hx] at hval
  | some x =>
      simp only [hx, Option.map_some, Option.some.injEq] at hval
      rw [hval]

theorem entry_of_lt (h : Represents l ps xs) {i : ℕ} (hi : i < ps.length) :
    ∃ a e, ps[i]? = some a ∧ l.entries a = some e ∧ e.prev = before ps i ∧
      e.next = ps[i + 1]? ∧ xs[i]? = some e.value := by
  have ha : ps[i]? = some ps[i] := List.getElem?_eq_getElem hi
  obtain ⟨e, he⟩ := h.entry_at ha
  exact ⟨ps[i], e, ha, he⟩

/-- Two lists with one head agree as far as their entries lead to the same ones. -/
theorem getElem?_eq_of_next {l' : LinkedList V} {qs : List Addr} {ys : List (Option V)}
    (h : Represents l ps xs) (h' : Represents l' qs ys) (hhead : l'.head = l.head) {i : ℕ}
    (hnext : ∀ j < i, ∀ b, ps[j]? = some b →
      (l'.entries b).map ListEntry.next = (l.entries b).map ListEntry.next) :
    qs[i]? = ps[i]? := by
  induction i with
  | zero => exact (h'.head.symm.trans hhead).trans h.head
  | succ i ih =>
      have hsame := ih fun j hj => hnext j (hj.trans (Nat.lt_succ_self i))
      cases hp : ps[i]? with
      | none =>
          have hple := List.getElem?_eq_none_iff.mp hp
          have hqle := List.getElem?_eq_none_iff.mp (hsame.trans hp)
          rw [List.getElem?_eq_none (by omega), List.getElem?_eq_none (by omega)]
      | some a =>
          obtain ⟨e, he, -, hnext₁, -⟩ := h.entry_at hp
          obtain ⟨f, hf, -, hnext₂, -⟩ := h'.entry_at (hsame.trans hp)
          have hkept := hnext i (Nat.lt_succ_self i) a hp
          rw [he, hf] at hkept
          exact hnext₂.symm.trans ((Option.some.inj hkept).trans hnext₁)

theorem unique {qs : List Addr} {ys : List (Option V)} (h : Represents l ps xs)
    (h' : Represents l qs ys) : ps = qs ∧ xs = ys := by
  have hps : qs = ps := List.ext_getElem? fun i =>
    h.getElem?_eq_of_next h' rfl fun _ _ _ _ => rfl
  subst hps
  have hvalues := h.values.symm.trans h'.values
  exact ⟨rfl, List.map_injective_iff.mpr (fun _ _ => Option.some.inj) hvalues⟩

/-- A list stays represented when the entries of its chain are kept. -/
theorem of_entries (h : Represents l ps xs) {es : Heap (ListEntry V)}
    (hes : ∀ a ∈ ps, es a = l.entries a) :
    Represents { l with entries := es } ps xs where
  linked := h.linked.congr fun a ha => by simp [links, hes a ha]
  values := by
    rw [← h.values]
    apply List.map_congr_left
    intro a ha
    simp [valueAt, hes a ha]
  head := h.head
  tail := h.tail
  length := h.length
  cursor := h.cursor

/-- Any coherent cursor may be installed. -/
theorem set_cursor (h : Represents l ps xs) {pos : ℕ} {a : Addr}
    (ha : ps[pos]? = some a) :
    Represents { l with pos := pos, cur := some a } ps xs where
  linked := h.linked
  values := h.values
  head := h.head
  tail := h.tail
  length := h.length
  cursor := by
    intro b hb
    cases hb
    exact ha

/-! ## Lookup -/

theorem walkNext_eq {es : Heap (ListEntry V)} (h : DLinked (links es) ps) :
    ∀ n i, i + n < ps.length → walkNext es n ps[i]? = some ps[i + n]? := by
  intro n
  induction n with
  | zero =>
      intro i _
      rfl
  | succ n ih =>
      intro i hi
      have ha : ps[i]? = some ps[i] := List.getElem?_eq_getElem (by omega)
      obtain ⟨e, he, heq⟩ := Option.map_eq_some_iff.mp (h.links i _ ha)
      have hnext : e.next = ps[i + 1]? := congrArg Links.next heq
      rw [ha]
      simp only [walkNext, Option.bind_eq_bind, Option.bind_some, he, hnext]
      rw [ih (i + 1) (by omega)]
      congr 2
      omega

theorem walkPrev_eq {es : Heap (ListEntry V)} (h : DLinked (links es) ps) :
    ∀ n i, i + n < ps.length → walkPrev es n ps[i + n]? = some ps[i]? := by
  intro n
  induction n with
  | zero =>
      intro i _
      rfl
  | succ n ih =>
      intro i hi
      have ha : ps[i + (n + 1)]? = some ps[i + (n + 1)] :=
        List.getElem?_eq_getElem hi
      obtain ⟨e, he, heq⟩ := Option.map_eq_some_iff.mp (h.links _ _ ha)
      have hprev : e.prev = ps[i + n]? := congrArg Links.prev heq
      rw [ha]
      simp only [walkPrev, Option.bind_eq_bind, Option.bind_some, he, hprev]
      exact ih i (by omega)

end Represents

/-- The walk of `pick_entry` has a counter that can get to the position. -/
def Finds (l : LinkedList V) (pos : ℕ) : Prop :=
  if l.cursorIsClose pos then
    (l.pos < pos → pos < 2 ^ 32) ∧ (pos < l.pos → l.pos < 2 ^ 32)
  else if l.length / 2 < pos then
    pos + 1 < l.length → l.length ≤ 2 ^ 32
  else
    pos < 2 ^ 32

theorem cUInt_eq {n : ℕ} (h : n < 2 ^ 32) : cUInt n = n :=
  Nat.mod_eq_of_lt h

theorem cUInt_of_lt {n : ℕ} (h : n < 2 ^ 31) : cUInt n = n :=
  cUInt_eq (by omega)

namespace Represents

variable {l : LinkedList V} {ps : List Addr} {xs : List (Option V)}

/-- The walk down from a position of the chain, which is counted in 32 bits, stops at the
wanted one or before it. -/
theorem walkPrev_cUInt (h : Represents l ps xs) {n pos : ℕ} (hn : n < ps.length)
    (hpos : pos ≤ n) :
    ∃ q, pos ≤ q ∧ q < ps.length ∧
      walkPrev l.entries (cUInt n - pos) ps[n]? = some ps[q]? ∧
      (q = pos ↔ n = pos ∨ n < 2 ^ 32) := by
  have hle : cUInt n ≤ n := Nat.mod_le n _
  have hsum : n - (cUInt n - pos) + (cUInt n - pos) = n := by omega
  have hwalk := walkPrev_eq h.linked (cUInt n - pos) (n - (cUInt n - pos)) (by omega)
  rw [hsum] at hwalk
  refine ⟨n - (cUInt n - pos), by omega, by omega, hwalk, ?_⟩
  by_cases hfits : n < 2 ^ 32
  · rw [cUInt_eq hfits]
    omega
  · have hlt : cUInt n < 2 ^ 32 := Nat.mod_lt n (Nat.two_pow_pos 32)
    omega

theorem walkUp_eq (h : Represents l ps xs) {i pos : ℕ} (hi : i ≤ pos) (hpos : pos < ps.length)
    (hfits : pos < 2 ^ 32) : walkUp l.entries i pos ps[i]? = some ps[pos]? := by
  have hsum : i + (pos - i) = pos := by omega
  rw [walkUp, if_pos hfits, walkNext_eq h.linked _ _ (by omega), hsum]

/-- The walk of `pick_entry` ends at the wanted position exactly if its counter can get
there; otherwise it never ends, or it ends at a later position. -/
theorem seekEntry_cases (h : Represents l ps xs) {pos : ℕ} (hpos : pos < ps.length) :
    l.Finds pos ∧ l.seekEntry pos = some ps[pos]? ∨
      ¬ l.Finds pos ∧ (l.seekEntry pos = none ∨
        ∃ q, pos < q ∧ q < ps.length ∧ l.seekEntry pos = some ps[q]?) := by
  unfold seekEntry Finds
  by_cases hclose : l.cursorIsClose pos
  · rw [if_pos hclose, if_pos hclose]
    obtain ⟨c, hc⟩ := Option.isSome_iff_exists.mp ((Bool.and_eq_true _ _).mp hclose).1
    have hcur := h.cursor c hc
    have hcpos : l.pos < ps.length := (List.getElem?_eq_some_iff.mp hcur).1
    rw [hc, ← hcur]
    rcases Nat.lt_trichotomy l.pos pos with hlt | heq | hgt
    · rw [if_pos hlt]
      by_cases hfits : pos < 2 ^ 32
      · rw [cUInt_eq (hlt.trans hfits), h.walkUp_eq hlt.le hpos hfits]
        exact Or.inl ⟨⟨fun _ => hfits, fun hgt => absurd hgt hlt.asymm⟩, rfl⟩
      · refine Or.inr ⟨fun hfinds => hfits (hfinds.1 hlt), Or.inl ?_⟩
        rw [walkUp, if_neg hfits]
    · rw [heq, if_neg (Nat.lt_irrefl pos), if_neg (Nat.lt_irrefl pos)]
      exact Or.inl ⟨⟨fun hlt => absurd hlt (Nat.lt_irrefl pos),
        fun hgt => absurd hgt (Nat.lt_irrefl pos)⟩, rfl⟩
    · rw [if_neg hgt.asymm, if_pos hgt]
      obtain ⟨q, hle, hq, hwalk, hiff⟩ := h.walkPrev_cUInt hcpos hgt.le
      rw [hwalk]
      by_cases hfits : l.pos < 2 ^ 32
      · rw [hiff.mpr (Or.inr hfits)]
        exact Or.inl ⟨⟨fun hlt => absurd hlt hgt.asymm, fun _ => hfits⟩, rfl⟩
      · refine Or.inr ⟨fun hfinds => hfits (hfinds.2 hgt), Or.inr ⟨q, ?_, hq, rfl⟩⟩
        refine lt_of_le_of_ne hle fun heq => ?_
        rcases hiff.mp heq.symm with heq | hlt
        · exact absurd heq (Nat.ne_of_gt hgt)
        · exact hfits hlt
  · rw [if_neg hclose, if_neg hclose]
    by_cases hhalf : l.length / 2 < pos
    · rw [if_pos hhalf, if_pos hhalf, h.length, h.tail, before, if_neg (by omega)]
      obtain ⟨q, hle, hq, hwalk, hiff⟩ :=
        h.walkPrev_cUInt (show ps.length - 1 < ps.length by omega) (show pos ≤ _ by omega)
      rw [hwalk]
      by_cases heq : q = pos
      · have := hiff.mp heq
        exact Or.inl ⟨by omega, by rw [heq]⟩
      · have := mt hiff.mpr heq
        exact Or.inr ⟨by omega, Or.inr ⟨q, by omega, hq, rfl⟩⟩
    · rw [if_neg hhalf, if_neg hhalf, h.head]
      by_cases hfits : pos < 2 ^ 32
      · exact Or.inl ⟨hfits, h.walkUp_eq (Nat.zero_le pos) hpos hfits⟩
      · refine Or.inr ⟨hfits, Or.inl ?_⟩
        rw [walkUp, if_neg hfits]

theorem finds (h : Represents l ps xs) (hlen : ps.length ≤ 2 ^ 32) {pos : ℕ}
    (hpos : pos < ps.length) : l.Finds pos := by
  unfold Finds
  split
  case isTrue hclose =>
    obtain ⟨c, hc⟩ := Option.isSome_iff_exists.mp ((Bool.and_eq_true _ _).mp hclose).1
    have hcpos : l.pos < ps.length := (List.getElem?_eq_some_iff.mp (h.cursor c hc)).1
    omega
  case isFalse =>
    have := h.length
    split
    · omega
    · omega

theorem seekEntry_of_finds (h : Represents l ps xs) {pos : ℕ} (hpos : pos < ps.length)
    (hfinds : l.Finds pos) : l.seekEntry pos = some ps[pos]? := by
  rcases h.seekEntry_cases hpos with ⟨-, hseek⟩ | ⟨hnot, -⟩
  · exact hseek
  · exact absurd hfinds hnot

theorem pickEntry_of_finds (h : Represents l ps xs) {pos : ℕ} {a : Addr}
    (ha : ps[pos]? = some a) (hfinds : l.Finds pos) :
    l.pickEntry pos = some ({ l with pos := pos, cur := some a }, some a) := by
  have hpos : pos < ps.length := (List.getElem?_eq_some_iff.mp ha).1
  have hnot : ¬ l.length ≤ pos := by
    rw [h.length]
    omega
  simp [pickEntry, hnot, h.seekEntry_of_finds hpos hfinds, ha]

theorem pickEntry_of_le (h : Represents l ps xs) (hlen : ps.length ≤ 2 ^ 32)
    {pos : ℕ} {a : Addr} (ha : ps[pos]? = some a) :
    l.pickEntry pos = some ({ l with pos := pos, cur := some a }, some a) :=
  h.pickEntry_of_finds ha (h.finds hlen (List.getElem?_eq_some_iff.mp ha).1)

theorem pickEntry_of_lt (h : Represents l ps xs) (hlen : ps.length < 2 ^ 31)
    {pos : ℕ} {a : Addr} (ha : ps[pos]? = some a) :
    l.pickEntry pos = some ({ l with pos := pos, cur := some a }, some a) :=
  h.pickEntry_of_le (by omega) ha

theorem pickEntry_of_ge (h : Represents l ps xs) {pos : ℕ}
    (hpos : ps.length ≤ pos) : l.pickEntry pos = some (l, none) := by
  rw [← h.length] at hpos
  simp [pickEntry, hpos]

end Represents
end LinkedList
end LibHL
