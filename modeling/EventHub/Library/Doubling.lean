import Mathlib.Data.Nat.Basic
import Mathlib.Tactic.Ring

/-! Tables that double without moving their contents. A table of `2 ^ k` cells has
some cells made and the others pending; what hashes to `h` belongs to its finest
made cell among `h % 2 ^ k`, `h % 2 ^ (k - 1)`, ..., `0`. -/

namespace EventHub.Library.Doubling

/-- The finest made cell of `h` at level `k`; cell 0 counts as made. -/
def home (made : Nat → Bool) (h : Nat) : Nat → Nat
  | 0 => 0
  | k + 1 => if made (h % 2 ^ (k + 1)) then h % 2 ^ (k + 1) else home made h k

variable {made made' : Nat → Bool} {h c k j : Nat}

theorem home_lt : home made h k < 2 ^ k := by
  induction k with
  | zero => exact Nat.one_pos
  | succ k ih =>
    rw [home]
    split
    · exact Nat.mod_lt _ (Nat.two_pow_pos _)
    · exact Nat.lt_trans ih (Nat.pow_lt_pow_right (by decide) (Nat.lt_succ_self k))

theorem home_made (zero : made 0) : made (home made h k) := by
  induction k with
  | zero => exact zero
  | succ k ih =>
    rw [home]
    split
    · assumption
    · exact ih

theorem home_of_made (here : made (h % 2 ^ k)) : home made h k = h % 2 ^ k := by
  cases k with
  | zero => simp [home, Nat.mod_one]
  | succ k => rw [home, if_pos here]

theorem made_iff_home (zero : made 0) : made (h % 2 ^ k) ↔ home made h k = h % 2 ^ k :=
  ⟨home_of_made, fun eq => eq ▸ home_made zero⟩

theorem home_mod (le : k ≤ j) : home made (h % 2 ^ j) k = home made h k := by
  induction k with
  | zero => rfl
  | succ k ih =>
    rw [home, home, Nat.mod_mod_of_dvd _ (Nat.pow_dvd_pow 2 le), ih (Nat.le_of_succ_le le)]

theorem home_pending (lt : c < 2 ^ (j + 1)) (pending : made c = false) (le : j ≤ k) :
    home made c k = home made c j := by
  induction k with
  | zero => rw [Nat.le_zero.mp le]
  | succ k ih =>
    by_cases eq : j = k + 1
    · rw [eq]
    · have le : j ≤ k := by omega
      have small : c % 2 ^ (k + 1) = c := Nat.mod_eq_of_lt
        (Nat.lt_of_lt_of_le lt (Nat.pow_le_pow_right (by decide) (Nat.succ_le_succ le)))
      rw [home, small, pending, ih le]
      rfl

theorem home_double (pending : ∀ c, 2 ^ k ≤ c → made c = false) :
    home made h (k + 1) = home made h k := by
  rw [home]
  split
  · rename_i here
    have low : h % 2 ^ (k + 1) < 2 ^ k := by
      by_contra high
      rw [pending _ (Nat.le_of_not_lt high)] at here
      cases here
    have same : h % 2 ^ k = h % 2 ^ (k + 1) := by
      rw [← Nat.mod_mod_of_dvd h (Nat.pow_dvd_pow 2 (Nat.le_succ k)), Nat.mod_eq_of_lt low]
    rw [← same] at here ⊢
    exact (home_of_made here).symm
  · rfl

theorem home_make {old : Nat} (more : ∀ c, made c → made' c)
    (new : ∀ c, made' c → made c = false → home made c k = old) (other : home made h k ≠ old) :
    home made' h k = home made h k := by
  suffices ∀ i ≤ k, home made' h i = home made h i ∨
      ∃ c, made' c ∧ made c = false ∧ home made c k = home made h i by
    have levels := this k (le_refl k)
    rcases levels with same | ⟨c, here, pending, same⟩
    · exact same
    · exact absurd (same.symm.trans (new c here pending)) other
  intro i le
  induction i with
  | zero => exact .inl rfl
  | succ i ih =>
    rw [home, home]
    by_cases here : made (h % 2 ^ (i + 1))
    · rw [if_pos here, if_pos (more _ here)]
      exact .inl rfl
    · rw [if_neg here]
      by_cases here' : made' (h % 2 ^ (i + 1))
      · -- the finest cell of `h` is new: it belonged where `h` did
        have pending : made (h % 2 ^ (i + 1)) = false := by simpa using here
        refine .inr ⟨_, here', pending, ?_⟩
        rw [home_pending (Nat.mod_lt _ (Nat.two_pow_pos _)) pending (Nat.le_of_succ_le le),
          home_mod (Nat.le_succ i)]
      · rw [if_neg here']
        exact ih (Nat.le_of_succ_le le)

end EventHub.Library.Doubling
