import Mathlib.Algebra.Order.Field.Basic
import Mathlib.Algebra.Order.Ring.Abs
import Mathlib.Algebra.Group.Int.Even
import Mathlib.Tactic.Linarith
import Mathlib.Tactic.Ring

/-! The integers nearest to a number, with ties to the even one. -/

namespace EventHub.Library

variable {K : Type*} [Field K] [LinearOrder K] [IsStrictOrderedRing K] {x : K} {n : Int}

/-- No integer is nearer to `x` than `n`, and of two that are equally near `n` is the even one. -/
structure NearestEven (x : K) (n : Int) : Prop where
  nearest : ∀ m : Int, |x - n| ≤ |x - m|
  even : ∀ m : Int, m ≠ n → |x - m| = |x - n| → Even n

theorem one_le_abs_add {m : Int} (ne : m ≠ n) : 1 ≤ |x - m| + |x - n| := by
  have apart : (1 : K) ≤ |((m - n : Int) : K)| := by
    have one := Int.one_le_abs (sub_ne_zero.mpr ne)
    exact_mod_cast one
  have split : ((m - n : Int) : K) = (x - n) - (x - m) := by
    push_cast
    ring
  rw [split] at apart
  have triangle := abs_sub (x - n) (x - m)
  linarith

theorem exists_neighbour (near : |x - n| ≤ 1) :
    ∃ m : Int, m ≠ n ∧ |x - m| = 1 - |x - n| := by
  rcases le_total 0 (x - n) with above | below
  · rw [abs_of_nonneg above] at near ⊢
    refine ⟨n + 1, by omega, ?_⟩
    push_cast
    rw [abs_of_nonpos (by linarith)]
    ring
  · rw [abs_of_nonpos below] at near ⊢
    refine ⟨n - 1, by omega, ?_⟩
    push_cast
    rw [abs_of_nonneg (by linarith)]
    ring

theorem NearestEven.le (h : NearestEven x n) : |x - n| ≤ 1 / 2 := by
  rcases le_total 0 (x - n) with above | below
  · have next := h.nearest (n + 1)
    rw [abs_of_nonneg above] at next ⊢
    push_cast at next
    by_contra far
    rcases le_abs.mp next with le | le <;> linarith
  · have next := h.nearest (n - 1)
    rw [abs_of_nonpos below] at next ⊢
    push_cast at next
    by_contra far
    rcases le_abs.mp next with le | le <;> linarith

theorem nearestEven_iff : NearestEven x n ↔ |x - n| < 1 / 2 ∨ |x - n| = 1 / 2 ∧ Even n := by
  constructor
  · intro h
    rcases h.le.lt_or_eq with lt | tie
    · exact .inl lt
    · obtain ⟨m, ne, eq⟩ := exists_neighbour (tie.le.trans (by norm_num))
      exact .inr ⟨tie, h.even m ne (by rw [eq, tie]; norm_num)⟩
  · intro h
    have half : |x - n| ≤ 1 / 2 := h.elim le_of_lt fun tie => tie.1.le
    refine ⟨fun m => ?_, fun m ne same => ?_⟩
    · by_cases eq : m = n
      · rw [eq]
      · have apart := one_le_abs_add (x := x) eq
        linarith
    · rcases h with lt | tie
      · have apart := one_le_abs_add (x := x) ne
        linarith
      · exact tie.2

end EventHub.Library
