import Mathlib.Data.List.Basic
import Mathlib.Data.Nat.ModEq

/-! Absolute stream positions kept in a circular buffer of `n` cells.
Position `t` lives in cell `t % n`; an index over the mirrored range `2 * n`
determines the cell and tells a full buffer from an empty one. -/

namespace EventHub.Library.Circular

variable {α : Type*}

theorem cell_injective {n a s t : Nat} (hs : a ≤ s) (hs' : s < a + n)
    (ht : a ≤ t) (ht' : t < a + n) (same : s % n = t % n) : s = t := by
  have key : ∀ {x y : Nat}, a ≤ x → y < a + n → x ≤ y → x % n = y % n → x = y := by
    intro x y hx hy le eq
    have dvd : n ∣ y - x := (Nat.modEq_iff_dvd' le).mp eq
    have small : y - x < n := by omega
    have := Nat.eq_zero_of_dvd_of_lt dvd small
    omega
  rcases Nat.le_total s t with le | le
  · exact key hs ht' le same
  · exact (key ht hs' le same.symm).symm

theorem mod_split {n t d : Nat} (pos : 0 < n) (hd : d ≤ n) :
    (t + d) % n = t % n + d ∧ t % n + d < n ∨
      (t + d) % n + n = t % n + d ∧ n ≤ t % n + d := by
  have lt : t % n < n := Nat.mod_lt _ pos
  rw [← Nat.mod_add_mod]
  by_cases small : t % n + d < n
  · exact .inl ⟨Nat.mod_eq_of_lt small, small⟩
  · refine .inr ⟨?_, by omega⟩
    rw [Nat.mod_eq_sub_mod (by omega)]
    by_cases whole : t % n + d - n < n
    · rw [Nat.mod_eq_of_lt whole]
      omega
    · omega

theorem mirror_mod (n t : Nat) : t % (2 * n) % n = t % n :=
  Nat.mod_mul_left_mod t 2 n

theorem mirror_distance {n a b : Nat} (pos : 0 < n) (le : a ≤ b) (hb : b ≤ a + n) :
    b % (2 * n) = a % (2 * n) + (b - a) ∨
      b % (2 * n) + 2 * n = a % (2 * n) + (b - a) := by
  have split := mod_split (n := 2 * n) (t := a) (d := b - a) (by omega) (by omega)
  rw [Nat.add_sub_cancel' le] at split
  omega

/-- Positions `a, ..., b - 1` of the stream are in their cells. -/
def Holds (buf : List α) (n : Nat) (f : Nat → Option α) (a b : Nat) : Prop :=
  ∀ t, a ≤ t → t < b → buf[t % n]? = f t

theorem Holds.mono {buf : List α} {n : Nat} {f : Nat → Option α} {a b a' b' : Nat}
    (h : Holds buf n f a b) (ha : a ≤ a') (hb : b' ≤ b) : Holds buf n f a' b' :=
  fun t ht ht' => h t (ha.trans ht) (ht'.trans_le hb)

theorem Holds.turn {buf : List α} {n : Nat} {f g : Nat → Option α} {a k : Nat}
    (h : Holds buf n f a (a + n)) (hk : k ≤ n)
    (kept : ∀ t, a + k ≤ t → t < a + n → g t = f t)
    (turned : ∀ t, a ≤ t → t < a + k → g (t + n) = f t) :
    Holds buf n g (a + k) (a + k + n) := by
  intro t ht ht'
  by_cases inside : t < a + n
  · rw [kept t ht inside]
    exact h t (by omega) inside
  · have cell : t % n = (t - n) % n := Nat.mod_eq_sub_mod (by omega)
    have value := turned (t - n) (by omega) (by omega)
    rw [Nat.sub_add_cancel (by omega)] at value
    rw [cell, value]
    exact h (t - n) (by omega) (by omega)

end EventHub.Library.Circular
