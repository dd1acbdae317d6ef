import Mathlib.Data.List.Rotate
import Mathlib.Data.Nat.ModEq

/-!
# Windows of a circular buffer

The elements from a position of a buffer on, going round at its end, are a
prefix of a rotation of the buffer.  Reading moves the start of the window, and
writing behind it extends the window, whether or not the pieces go round.
-/

namespace LibHL
namespace Circular

variable {α : Type*} {b b' : List α} {start start' len k off : ℕ} {xs : List α}

/-- The `len` elements from `start` on, going round. -/
def window (b : List α) (start len : ℕ) : List α := (b.rotate start).take len

/-- Replace the elements from `off` on. -/
def overwrite (b : List α) (off : ℕ) (xs : List α) : List α :=
  b.take off ++ xs ++ b.drop (off + xs.length)

@[simp] theorem window_zero (b : List α) (start : ℕ) : window b start 0 = [] :=
  List.take_zero

theorem length_window (hlen : len ≤ b.length) : (window b start len).length = len := by
  rw [window, List.length_take, List.length_rotate, Nat.min_eq_left hlen]

theorem take_window (b : List α) (start : ℕ) (hk : k ≤ len) :
    (window b start len).take k = window b start k := by
  rw [window, List.take_take, Nat.min_eq_left hk, window]

theorem window_congr (h : start ≡ start' [MOD b.length]) :
    window b start len = window b start' len := by
  rw [window, window, ← List.rotate_mod b start, h, List.rotate_mod]

theorem drop_window (hk : k ≤ len) (hlen : len ≤ b.length) :
    (window b start len).drop k = window b (start + k) (len - k) := by
  have hrot : b.rotate (start + k) = (b.rotate start).drop k ++ (b.rotate start).take k := by
    rw [← List.rotate_rotate, List.rotate_eq_drop_append_take]
    rw [List.length_rotate]
    omega
  rw [window, window, hrot, List.drop_take, List.take_append_of_le_length]
  rw [List.length_drop, List.length_rotate]
  omega

theorem window_wrapped (hstart : start ≤ b.length) (hround : b.length - start < len) :
    window b start len = b.drop start ++ (b.take start).take (len - (b.length - start)) := by
  rw [window, List.rotate_eq_drop_append_take hstart, List.take_append,
    List.take_of_length_le (by rw [List.length_drop]; omega), List.length_drop]

theorem window_straight (hlen : len ≤ b.length - start) (hstart : start ≤ b.length) :
    window b start len = (b.drop start).take len := by
  rw [window, List.rotate_eq_drop_append_take hstart, List.take_append_of_le_length]
  rwa [List.length_drop]

theorem rotate_append_of_length {l l' : List α} (h : l.length = k) :
    (l ++ l').rotate k = l' ++ l := by
  rw [← h, List.rotate_append_length_eq]

theorem length_overwrite (hfit : off + xs.length ≤ b.length) :
    (overwrite b off xs).length = b.length := by
  rw [overwrite, List.length_append, List.length_append, List.length_take, List.length_drop]
  omega

@[simp] theorem overwrite_nil (b : List α) (off : ℕ) : overwrite b off [] = b := by
  rw [overwrite, List.append_nil, List.length_nil, Nat.add_zero, List.take_append_drop]

theorem overwrite_append_left (d : List α) (hfit : off + xs.length ≤ b.length) :
    overwrite (b ++ d) off xs = overwrite b off xs ++ d := by
  rw [overwrite, overwrite, List.take_append_of_le_length (by omega),
    List.drop_append_of_le_length hfit, List.append_assoc, List.append_assoc, List.append_assoc]

theorem drop_overwrite (hk : off + xs.length ≤ k) (hfit : off + xs.length ≤ b.length) :
    (overwrite b off xs).drop k = b.drop k := by
  have hlen : (b.take off ++ xs).length = off + xs.length := by
    rw [List.length_append, List.length_take]
    omega
  rw [overwrite, List.drop_append, hlen, List.drop_of_length_le (by omega), List.nil_append,
    List.drop_drop]
  congr 1
  omega

theorem take_overwrite_zero (b : List α) (xs : List α) :
    (overwrite b 0 xs).take xs.length = xs := by
  rw [overwrite, List.take_zero, List.nil_append, List.take_left]

theorem window_overwrite_zero (hstart : start ≡ 0 [MOD b.length]) (hfit : xs.length ≤ b.length) :
    window (overwrite b 0 xs) start xs.length = xs := by
  have hlen : (overwrite b 0 xs).length = b.length := length_overwrite (by omega)
  rw [← hlen] at hstart
  rw [window_congr hstart, window, List.rotate_zero, take_overwrite_zero]

theorem rotate_overwrite (hfit : off + xs.length ≤ b.length) :
    (overwrite b off xs).rotate off = xs ++ (b.rotate off).drop xs.length := by
  have hoff : off ≤ b.length := by omega
  have htake : (b.take off).length = off := by
    rw [List.length_take]
    omega
  have hleft : (overwrite b off xs).rotate off =
      xs ++ b.drop (off + xs.length) ++ b.take off := by
    rw [overwrite, List.append_assoc, rotate_append_of_length htake]
  rw [hleft, List.rotate_eq_drop_append_take hoff, List.drop_append_of_le_length,
    List.drop_drop, List.append_assoc]
  rw [List.length_drop]
  omega

/-- Elements written in two pieces, seen from where they start. -/
theorem rotate_overwrite_wrapped (hoff : off ≤ b.length) (hround : b.length - off < xs.length)
    (hfit : xs.length ≤ b.length) :
    (overwrite (overwrite b off (xs.take (b.length - off))) 0
        (xs.drop (b.length - off))).rotate off = xs ++ (b.rotate off).drop xs.length := by
  have hfirst : (xs.take (b.length - off)).length = b.length - off := by
    rw [List.length_take]
    omega
  have hsecond : (xs.drop (b.length - off)).length = xs.length - (b.length - off) :=
    List.length_drop
  -- The first piece reaches the end, the second one stays before its start.
  have hb₁ : overwrite b off (xs.take (b.length - off)) =
      b.take off ++ xs.take (b.length - off) := by
    rw [overwrite, hfirst, List.drop_of_length_le (by omega), List.append_nil]
  have hb₂ : overwrite (b.take off ++ xs.take (b.length - off)) 0
      (xs.drop (b.length - off)) =
      (xs.drop (b.length - off) ++ (b.take off).drop (xs.length - (b.length - off))) ++
        xs.take (b.length - off) := by
    rw [overwrite, List.take_zero, List.nil_append, Nat.zero_add, hsecond,
      List.drop_append_of_le_length, List.append_assoc]
    rw [List.length_take]
    omega
  have hlen : (xs.drop (b.length - off) ++
      (b.take off).drop (xs.length - (b.length - off))).length = off := by
    rw [List.length_append, hsecond, List.length_drop, List.length_take]
    omega
  have hnil : (b.drop off).drop xs.length = [] :=
    List.drop_of_length_le (by rw [List.length_drop]; omega)
  rw [hb₁, hb₂, rotate_append_of_length hlen, ← List.append_assoc, List.take_append_drop,
    List.rotate_eq_drop_append_take hoff, List.drop_append, hnil, List.nil_append,
    List.length_drop]

/-- What is written behind a window extends it. -/
theorem window_append {w : ℕ} (hrot : b'.rotate w = xs ++ (b.rotate w).drop xs.length)
    (hlen : b'.length = b.length) (hw : start + len ≡ w [MOD b.length])
    (hfit : len + xs.length ≤ b.length) :
    window b' start (len + xs.length) = window b start len ++ xs := by
  have hbw : b.rotate w = (b.rotate start).rotate len := by
    rw [List.rotate_rotate, ← List.rotate_mod b w, ← hw, List.rotate_mod]
  have hb'w : b'.rotate w = (b'.rotate start).rotate len := by
    rw [List.rotate_rotate, ← List.rotate_mod b' w, hlen, ← hw, ← hlen, List.rotate_mod]
  have hR : (b.rotate start).rotate len =
      (b.rotate start).drop len ++ (b.rotate start).take len :=
    List.rotate_eq_drop_append_take (by rw [List.length_rotate]; omega)
  have htake : ((b.rotate start).take len).length = len := by
    rw [List.length_take, List.length_rotate]
    omega
  have hX : b'.rotate start =
      (b.rotate start).take len ++ (xs ++ (b.rotate start).drop (len + xs.length)) := by
    refine List.rotate_injective len ?_
    show (b'.rotate start).rotate len = _
    have hround : ((b.rotate start).take len ++
        (xs ++ (b.rotate start).drop (len + xs.length))).rotate len =
        (xs ++ (b.rotate start).drop (len + xs.length)) ++ (b.rotate start).take len :=
      rotate_append_of_length htake
    show _ = ((b.rotate start).take len ++
        (xs ++ (b.rotate start).drop (len + xs.length))).rotate len
    rw [hround, ← hb'w, hrot, hbw, hR, List.drop_append_of_le_length, List.drop_drop,
      List.append_assoc]
    rw [List.length_drop, List.length_rotate]
    omega
  rw [window, hX, ← List.append_assoc, List.take_append_of_le_length, List.take_of_length_le,
    window]
  · rw [List.length_append, htake]
  · rw [List.length_append, htake]

theorem overwrite_append (ys : List α) (hfit : off + xs.length ≤ b.length) :
    overwrite (overwrite b off xs) (off + xs.length) ys = overwrite b off (xs ++ ys) := by
  have htake : (b.take off ++ xs).length = off + xs.length := by
    rw [List.length_append, List.length_take]
    omega
  have hfront : (overwrite b off xs).take (off + xs.length) = b.take off ++ xs := by
    rw [overwrite, ← htake, List.take_left]
  have hback : (overwrite b off xs).drop (off + xs.length + ys.length) =
      b.drop (off + (xs ++ ys).length) := by
    rw [drop_overwrite (by omega) hfit, List.length_append, Nat.add_assoc]
  rw [overwrite, hfront, hback, overwrite, List.append_assoc (b.take off)]

theorem getElem?_overwrite (hfit : off + xs.length ≤ b.length) (p : ℕ) :
    (overwrite b off xs)[p]? = if off ≤ p ∧ p < off + xs.length then xs[p - off]? else b[p]? := by
  have htake : (b.take off).length = off := by
    rw [List.length_take]
    omega
  by_cases hbefore : p < off
  · rw [if_neg (by omega), overwrite, List.append_assoc, List.getElem?_append_left (by omega),
      List.getElem?_take_of_lt hbefore]
  by_cases hinside : p < off + xs.length
  · rw [if_pos (by omega), overwrite, List.append_assoc, List.getElem?_append_right (by omega),
      htake, List.getElem?_append_left (by omega)]
  · have hlen : (b.take off ++ xs).length = off + xs.length := by
      rw [List.length_append, htake]
    rw [if_neg (by omega), overwrite, List.getElem?_append_right (by omega), hlen,
      List.getElem?_drop]
    congr 1
    omega

theorem drop_overwrite_self (hoff : off ≤ b.length) :
    (overwrite b off xs).drop off = xs ++ b.drop (off + xs.length) := by
  have htake : (b.take off).length = off := List.length_take_of_le hoff
  rw [overwrite, List.append_assoc]
  exact List.drop_left' htake

/-- What is written behind the first `k` cells from `off` on continues them. -/
theorem take_drop_overwrite {off k j : ℕ} (hfit : off + k + xs.length ≤ b.length)
    (hj : j ≤ xs.length) :
    ((overwrite b (off + k) xs).drop off).take (k + j) = (b.drop off).take k ++ xs.take j := by
  have hfront : ((b.take (off + k)).drop off).length = k := by
    rw [List.length_drop, List.length_take]
    omega
  rw [overwrite, List.append_assoc, List.drop_append_of_le_length, List.take_append, hfront,
    List.take_of_length_le (by omega), Nat.add_sub_cancel_left,
    List.take_append_of_le_length hj, List.drop_take, Nat.add_sub_cancel_left]
  rw [List.length_take]
  omega

theorem window_pieces (hstart : start ≤ b.length) (hlen : len ≤ b.length) :
    window b start len = (b.drop start).take len ++ b.take (len - (b.length - start)) := by
  by_cases hround : b.length - start < len
  · have hall : (b.drop start).length ≤ len := by
      rw [List.length_drop]
      omega
    rw [window_wrapped hstart hround, List.take_take, Nat.min_eq_left (by omega),
      List.take_of_length_le hall]
  · rw [window_straight (by omega) hstart, Nat.sub_eq_zero_of_le (by omega), List.take_zero,
      List.append_nil]

/-- Windows of two buffers are the same if their elements are. -/
theorem window_eq_iff (hlen : b'.length = b.length) (hfit : len ≤ b.length) :
    window b' start len = window b start len ↔
      ∀ k < len, b'[(start + k) % b.length]? = b[(start + k) % b.length]? := by
  have hat : ∀ {x : List α}, x.length = b.length → ∀ k, (window x start len)[k]? =
      if k < len then x[(start + k) % b.length]? else none := by
    intro x hx k
    by_cases hk : k < len
    · rw [if_pos hk, window, List.getElem?_take_of_lt hk, List.getElem?_rotate (by omega), hx,
        Nat.add_comm]
    · rw [if_neg hk, window, List.getElem?_take_eq_none (by omega)]
  constructor
  · intro heq k hk
    have hboth : (window b' start len)[k]? = (window b start len)[k]? := by
      rw [heq]
    rwa [hat hlen, hat rfl, if_pos hk, if_pos hk] at hboth
  · intro hall
    apply List.ext_getElem?
    intro k
    rw [hat hlen, hat rfl]
    by_cases hk : k < len
    · rw [if_pos hk, if_pos hk, hall k hk]
    · rw [if_neg hk, if_neg hk]

end Circular
end LibHL
