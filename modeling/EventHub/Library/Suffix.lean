import Mathlib.Data.List.Basic

/-! A property of the last elements of a list: of the `n` last ones, or of all if there are
fewer. -/

namespace EventHub.Library

variable {α : Type*} {p q : α → Prop} {l : List α} {m n : Nat}

def LastAll (p : α → Prop) (n : Nat) (l : List α) : Prop := ∀ x ∈ l.drop (l.length - n), p x

namespace LastAll

theorem zero (p : α → Prop) (l : List α) : LastAll p 0 l := by
  simp [LastAll]

theorem nil (p : α → Prop) (n : Nat) : LastAll p n [] := by
  simp [LastAll]

theorem mono (h : LastAll p n l) (le : m ≤ n) : LastAll p m l :=
  fun x mem => h x (List.drop_subset_drop_left l (by omega) mem)

theorem imp (h : LastAll p n l) (sub : ∀ x ∈ l, p x → q x) : LastAll q n l :=
  fun x mem => sub x (List.mem_of_mem_drop mem) (h x mem)

theorem concat (h : LastAll p n l) {x : α} (last : p x) : LastAll p n (l ++ [x]) := by
  intro y mem
  rw [List.drop_append, List.mem_append] at mem
  rcases mem with old | new
  · apply h y
    apply List.drop_subset_drop_left l _ old
    simp
    omega
  · rw [List.mem_singleton.mp (List.mem_of_mem_drop new)]
    exact last

theorem erase [DecidableEq α] (h : LastAll p (n + 1) l) (x : α) : LastAll p n (l.erase x) := by
  by_cases mem : x ∈ l
  · obtain ⟨a, b, -, rfl, eq⟩ := List.exists_erase_eq mem
    rw [eq]
    intro y later
    apply h y
    have short : (a ++ x :: b).length - (n + 1) = (a ++ b).length - n := by
      simp only [List.length_append, List.length_cons]
      omega
    rw [short, List.drop_append, List.mem_append]
    rw [List.drop_append, List.mem_append] at later
    apply later.imp_right
    intro inB
    cases eq : (a ++ b).length - n - a.length with
    | zero =>
      rw [eq] at inB
      exact List.mem_cons_of_mem _ inB
    | succ k =>
      rw [eq] at inB
      rw [List.drop_succ_cons]
      exact List.drop_subset_drop_left b (Nat.le_succ k) inB
  · rw [List.erase_of_not_mem mem]
    exact h.mono (Nat.le_succ n)

theorem rotate (h : LastAll p n l) (k : Nat) (first : ∀ x ∈ l.take k, p x) :
    LastAll p (n + k) (l.drop k ++ l.take k) := by
  intro x mem
  rw [List.drop_append, List.mem_append, List.drop_drop] at mem
  rcases mem with old | new
  · apply h x
    apply List.drop_subset_drop_left l _ old
    simp only [List.length_append, List.length_drop, List.length_take]
    omega
  · exact first x (List.mem_of_mem_drop new)

theorem le_length_filter (h : LastAll p n l) (f : α → Bool) (sub : ∀ x ∈ l, p x → f x = true) :
    min n l.length ≤ (l.filter f).length := by
  have all : (l.drop (l.length - n)).filter f = l.drop (l.length - n) :=
    List.filter_eq_self.mpr fun x mem => sub x (List.mem_of_mem_drop mem) (h x mem)
  calc min n l.length = ((l.drop (l.length - n)).filter f).length := by
        rw [all, List.length_drop]
        omega
    _ ≤ (l.filter f).length := ((List.drop_sublist _ l).filter f).length_le

end LastAll

end EventHub.Library
