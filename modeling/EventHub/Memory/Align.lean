import EventHub.Memory.Heap
import Mathlib.Data.Nat.Bitwise

/-! Words and alignment. -/

namespace EventHub.Memory

theorem word_of_lt {x : Nat} (h : x < 2 ^ 64) : word x = x := Nat.mod_eq_of_lt h

theorem word_lt (x : Nat) : word x < 2 ^ 64 := Nat.mod_lt _ (by decide)

theorem minus_of_le {x y : Nat} (le : y ≤ x) (lt : x < 2 ^ 64) : minus x y = x - y := by
  unfold minus word
  omega

namespace Layout
variable (L : Layout)

theorem alignSize_pos : 0 < L.alignSize := Nat.two_pow_pos _

theorem alignSize_dvd : L.alignSize ∣ 2 ^ 64 := Nat.pow_dvd_pow 2 L.shift_lt.le

variable {L} {x y : Nat}

theorem alignDown_eq (lt : x < 2 ^ 64) : L.alignDown x = x / L.alignSize * L.alignSize := by
  have mask : 18446744073709551615 - L.alignMask = 2 ^ 64 - (2 ^ L.shift - 1 + 1) := by
    have := Nat.two_pow_pos L.shift
    simp only [alignMask, alignSize]
    omega
  have below : 2 ^ L.shift - 1 < 2 ^ 64 :=
    lt_of_le_of_lt (Nat.sub_le ..) (Nat.pow_lt_pow_right (by decide) L.shift_lt)
  rw [alignDown, mask, alignSize]
  refine Nat.eq_of_testBit_eq fun i => ?_
  rw [Nat.testBit_and, Nat.testBit_two_pow_sub_succ below, Nat.testBit_two_pow_sub_one,
    Nat.testBit_mul_two_pow, Nat.testBit_div_two_pow]
  by_cases low : i < L.shift
  · simp [low]
  · by_cases high : i < 64
    · simp [low, high, Nat.sub_add_cancel (Nat.le_of_not_lt low), Nat.le_of_not_lt low]
    · have zero : x.testBit i = false := Nat.testBit_lt_two_pow
        (lt_of_lt_of_le lt (Nat.pow_le_pow_right (by decide) (Nat.le_of_not_lt high)))
      simp [low, zero, Nat.sub_add_cancel (Nat.le_of_not_lt low)]

theorem dvd_alignDown (lt : x < 2 ^ 64) : L.alignSize ∣ L.alignDown x := by
  rw [alignDown_eq lt]
  exact Nat.dvd_mul_left ..

theorem alignDown_le (lt : x < 2 ^ 64) : L.alignDown x ≤ x := by
  rw [alignDown_eq lt]
  exact Nat.div_mul_le_self ..

theorem dvd_alignUp : L.alignSize ∣ L.alignUp x := dvd_alignDown (word_lt _)

theorem alignUp_lt : L.alignUp x < 2 ^ 64 :=
  lt_of_le_of_lt (alignDown_le (word_lt _)) (word_lt _)

theorem le_alignUp (lt : x + L.alignMask < 2 ^ 64) : x ≤ L.alignUp x := by
  rw [alignUp, word_of_lt lt, alignDown_eq lt]
  have pos := L.alignSize_pos
  have := Nat.lt_div_mul_add (a := x + L.alignMask) pos
  simp only [alignMask] at *
  omega

theorem alignUp_le (lt : x + L.alignMask < 2 ^ 64) (dvd : L.alignSize ∣ y) (le : x ≤ y) :
    L.alignUp x ≤ y := by
  rw [alignUp, word_of_lt lt, alignDown_eq lt]
  obtain ⟨k, rfl⟩ := dvd
  have pos := L.alignSize_pos
  rw [Nat.mul_comm L.alignSize]
  refine Nat.mul_le_mul_right _ (Nat.lt_succ_iff.mp ((Nat.div_lt_iff_lt_mul pos).mpr ?_))
  simp only [Nat.succ_mul, alignMask, Nat.mul_comm k]
  omega

theorem alignMask_lt : L.alignMask < 2 ^ 63 := by
  have : 2 ^ L.shift ≤ 2 ^ 63 := Nat.pow_le_pow_right (by decide) (by have := L.shift_lt; omega)
  have pos := L.alignSize_pos
  simp only [alignMask, alignSize] at *
  omega

private theorem head_fits : 16 + L.alignMask < 2 ^ 64 := by
  have := L.alignMask_lt
  omega

theorem dvd_headSize : L.alignSize ∣ L.headSize := dvd_alignUp

theorem sixteen_le_headSize : 16 ≤ L.headSize := le_alignUp head_fits

theorem headSize_le (dvd : L.alignSize ∣ y) (le : 16 ≤ y) : L.headSize ≤ y :=
  alignUp_le head_fits dvd le

theorem headSize_lt : L.headSize < 2 ^ 64 := alignUp_lt

end Layout

end EventHub.Memory
