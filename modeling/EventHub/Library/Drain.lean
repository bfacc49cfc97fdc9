import Mathlib.Data.Set.Finite.Lattice
import Mathlib.Data.List.Nodup
import Mathlib.Order.Bounds.Basic

/-! Draining: of those that wait one after the other is taken, while others come and go. Who was
taken does not come back. -/

namespace EventHub.Library

variable {α : Type*}

structure Draining (waiting : ℕ → Set α) (taken : ℕ → Option α) (n : ℕ) : Prop where
  takes : ∀ i < n, ∀ x, taken i = some x → x ∈ waiting i ∧ x ∉ waiting (i + 1)
  comes : ∀ i < n, ∀ x ∈ waiting (i + 1), x ∈ waiting i ∨ ∀ j ≤ i, taken j ≠ some x

/-- Who was taken in the first `n` steps. -/
def takenBefore (taken : ℕ → Option α) (n : ℕ) : List α := (List.range n).filterMap taken

theorem takenBefore_succ (taken : ℕ → Option α) (n : ℕ) :
    takenBefore taken (n + 1) = takenBefore taken n ++ (taken n).toList := by
  rw [takenBefore, List.range_succ, List.filterMap_append]
  cases eq : taken n <;> simp [takenBefore, eq]

theorem mem_takenBefore {taken : ℕ → Option α} {n : ℕ} {x : α} :
    x ∈ takenBefore taken n ↔ ∃ i < n, taken i = some x := by
  simp [takenBefore]

namespace Draining
variable {waiting : ℕ → Set α} {taken : ℕ → Option α} {n i j : ℕ} {x : α}

theorem gone (h : Draining waiting taken n) (at_i : taken i = some x) (lt : i < j) (le : j ≤ n) :
    x ∉ waiting j := by
  induction j, lt using Nat.le_induction with
  | base => exact (h.takes i le x at_i).2
  | succ j ge ih =>
    intro mem
    rcases h.comes j le x mem with before | never
    · exact ih (Nat.le_of_succ_le le) before
    · exact never i (Nat.le_of_succ_le ge) at_i

theorem once (h : Draining waiting taken n) (lt_i : i < n) (lt_j : j < n)
    (at_i : taken i = some x) (at_j : taken j = some x) : i = j := by
  rcases Nat.lt_trichotomy i j with lt | eq | gt
  · exact absurd (h.takes j lt_j x at_j).1 (h.gone at_i lt lt_j.le)
  · exact eq
  · exact absurd (h.takes i lt_i x at_i).1 (h.gone at_j gt lt_i.le)

theorem nodup (h : Draining waiting taken n) : (takenBefore taken n).Nodup := by
  refine List.pairwise_filterMap.mpr (List.nodup_range.imp_of_mem fun mem mem' ne => ?_)
  intro x at_i y at_j eq
  exact ne (h.once (List.mem_range.mp mem) (List.mem_range.mp mem') at_i (eq ▸ at_j))

theorem ends (h : ∀ n, Draining waiting taken n) (finite : (⋃ i, waiting i).Finite) :
    ∃ n, ∀ i ≥ n, taken i = none := by
  have maps : Set.MapsTo taken {i | taken i ≠ none} (some '' ⋃ i, waiting i) := by
    intro i some_
    obtain ⟨x, eq⟩ := Option.ne_none_iff_exists'.mp some_
    exact ⟨x, Set.mem_iUnion.mpr ⟨i, ((h (i + 1)).takes i i.lt_succ_self x eq).1⟩, eq.symm⟩
  have injective : Set.InjOn taken {i | taken i ≠ none} := by
    intro i some_ j _ same
    obtain ⟨x, eq⟩ := Option.ne_none_iff_exists'.mp some_
    exact (h (max i j + 1)).once (by omega) (by omega) eq (same ▸ eq)
  obtain ⟨n, bound⟩ := (Set.Finite.of_injOn maps injective (finite.image some)).bddAbove
  refine ⟨n + 1, fun i ge => ?_⟩
  by_contra some_
  exact absurd (bound some_) (by omega)

end Draining

theorem mem_takenBefore_of_stays (waiting : ℕ → Set α) {taken : ℕ → Option α} {n : ℕ} {x : α}
    (start : x ∈ waiting 0)
    (stays : ∀ i < n, x ∈ waiting i → x ∈ waiting (i + 1) ∨ x ∈ takenBefore taken (i + 1))
    (empty : x ∉ waiting n) : x ∈ takenBefore taken n := by
  have kept : ∀ i ≤ n, x ∈ waiting i ∨ x ∈ takenBefore taken i := by
    intro i le
    induction i with
    | zero => exact .inl start
    | succ i ih =>
      rcases ih (Nat.le_of_succ_le le) with waits | before
      · exact stays i le waits
      · right
        rw [takenBefore_succ]
        exact List.mem_append_left _ before
  exact (kept n le_rfl).resolve_left empty

end EventHub.Library
