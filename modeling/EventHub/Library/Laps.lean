import Mathlib.Data.List.Rotate
import Mathlib.Data.List.Count

/-! Turns around a circle: each time some of the first are served and go behind the others.
Nobody is more than one turn ahead of another. -/

namespace EventHub.Library

variable {α : Type*} {count : α → ℕ} {l : List α} {a b : α}

/-- The first ones have had so many turns, the ones behind them one more. -/
def Level (count : α → ℕ) (l : List α) : Prop :=
  ∃ turns waiting served, l = waiting ++ served ∧ (∀ a ∈ waiting, count a = turns) ∧
    ∀ a ∈ served, count a = turns + 1

namespace Level

theorem start (l : List α) : Level (fun _ => 0) l :=
  ⟨0, l, [], by simp⟩

theorem apart (h : Level count l) (memA : a ∈ l) (memB : b ∈ l) : count a ≤ count b + 1 := by
  obtain ⟨turns, waiting, served, rfl, low, high⟩ := h
  have bounds : ∀ c ∈ waiting ++ served, turns ≤ count c ∧ count c ≤ turns + 1 := by
    intro c mem
    rcases List.mem_append.mp mem with mem | mem
    · rw [low c mem]
      omega
    · rw [high c mem]
      omega
  have := bounds a memA
  have := bounds b memB
  omega

variable [DecidableEq α]

theorem rotate (h : Level count l) (nodup : l.Nodup) {k : ℕ} (le : k ≤ l.length) :
    Level (fun a => count a + (l.take k).count a) (l.rotate k) := by
  obtain ⟨turns, waiting, served, rfl, low, high⟩ := h
  rw [List.rotate_eq_drop_append_take le]
  obtain ⟨front, back, apart⟩ :=
    List.nodup_append.mp ((List.take_append_drop k (waiting ++ served)).symm ▸ nodup)
  have turned : ∀ a ∈ (waiting ++ served).take k,
      ((waiting ++ served).take k).count a = 1 := fun a mem =>
    List.count_eq_one_of_mem front mem
  have passed : ∀ a ∈ (waiting ++ served).drop k,
      ((waiting ++ served).take k).count a = 0 := fun a mem =>
    List.count_eq_zero.mpr fun mem' => apart a mem' a mem rfl
  rcases Nat.le_total k waiting.length with short | long
  · rw [List.take_append_of_le_length short] at turned passed ⊢
    rw [List.drop_append_of_le_length short] at passed ⊢
    refine ⟨turns, waiting.drop k, served ++ waiting.take k, List.append_assoc .., ?_, ?_⟩
    · intro a mem
      beta_reduce
      rw [passed a (List.mem_append_left _ mem), low a (List.mem_of_mem_drop mem), Nat.add_zero]
    · intro a mem
      beta_reduce
      rcases List.mem_append.mp mem with mem | mem
      · rw [passed a (List.mem_append_right _ mem), high a mem]
      · rw [turned a mem, low a (List.mem_of_mem_take mem)]
  · -- one lap is over, and some of the next one
    obtain ⟨j, rfl⟩ := Nat.exists_eq_add_of_le long
    rw [List.take_length_add_append] at turned passed ⊢
    rw [List.drop_length_add_append] at passed ⊢
    refine ⟨turns + 1, served.drop j ++ waiting, served.take j,
      (List.append_assoc ..).symm, ?_, ?_⟩
    · intro a mem
      beta_reduce
      rcases List.mem_append.mp mem with mem | mem
      · rw [passed a mem, high a (List.mem_of_mem_drop mem)]
      · rw [turned a (List.mem_append_left _ mem), low a mem]
    · intro a mem
      beta_reduce
      rw [turned a (List.mem_append_right _ mem), high a (List.mem_of_mem_take mem)]

end Level

end EventHub.Library
