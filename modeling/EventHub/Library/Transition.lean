import Mathlib.Logic.Basic

/-! Labelled transition systems, their finite runs and invariants. -/

namespace EventHub.Library

variable {S L : Type*}

/-- `Run step s ls t`: from `s` the labels `ls`, in this order, lead to `t`. -/
inductive Run (step : S → L → S → Prop) : S → List L → S → Prop
  | nil (s : S) : Run step s [] s
  | snoc {s t u : S} {ls : List L} {l : L} :
      Run step s ls t → step t l u → Run step s (ls ++ [l]) u

namespace Run
variable {step : S → L → S → Prop} {s t u : S} {ls ms : List L} {l : L}

theorem single (h : step s l t) : Run step s [l] t := .snoc (.nil s) h

theorem append (h : Run step s ls t) (k : Run step t ms u) : Run step s (ls ++ ms) u := by
  induction k with
  | nil => simpa using h
  | snoc _ last ih =>
    rw [← List.append_assoc]
    exact .snoc ih last

theorem cons (h : step s l t) (k : Run step t ls u) : Run step s (l :: ls) u :=
  (single h).append k

theorem imp {step' : S → L → S → Prop} (sub : ∀ {s l t}, step s l t → step' s l t)
    (h : Run step s ls t) : Run step' s ls t := by
  induction h with
  | nil => exact .nil _
  | snoc _ last ih => exact .snoc ih (sub last)

theorem restrict {P : L → Prop} (h : Run step s ls t) (labels : ∀ l ∈ ls, P l) :
    Run (fun s l t => P l ∧ step s l t) s ls t := by
  induction h with
  | nil => exact .nil _
  | snoc _ last ih =>
    exact .snoc (ih fun l hl => labels l (by simp [hl])) ⟨labels _ (by simp), last⟩

/-- What holds at the start and is kept by every step holds after the run. -/
theorem invariant {I : S → Prop} (kept : ∀ {s l t}, I s → step s l t → I t)
    (h : Run step s ls t) (start : I s) : I t := by
  induction h with
  | nil => exact start
  | snoc _ last ih => exact kept ih last

theorem invariant_of_forall {I : S → Prop} {P : L → Prop}
    (kept : ∀ {s l t}, I s → P l → step s l t → I t)
    (h : Run step s ls t) (labels : ∀ l ∈ ls, P l) (start : I s) : I t := by
  induction h with
  | nil => exact start
  | snoc _ last ih =>
    exact kept (ih fun l hl => labels l (by simp [hl])) (labels _ (by simp)) last

theorem of_foldlM {ε S L : Type} {f : S → L → Except ε S} {s t : S} {ls : List L}
    (h : ls.foldlM f s = .ok t) : Run (fun s l t => f s l = .ok t) s ls t := by
  induction ls generalizing s with
  | nil =>
    cases h
    exact .nil _
  | cons l ls ih =>
    rw [List.foldlM_cons] at h
    cases first : f s l with
    | error e =>
      rw [first] at h
      cases h
    | ok u =>
      rw [first] at h
      exact .cons first (ih h)

theorem of_foldlM_some {S L : Type} {f : S → L → Option S} {s t : S} {ls : List L}
    (h : ls.foldlM f s = some t) : Run (fun s l t => f s l = some t) s ls t := by
  induction ls generalizing s with
  | nil =>
    cases h
    exact .nil _
  | cons l ls ih =>
    rw [List.foldlM_cons] at h
    obtain ⟨u, first, later⟩ := Option.bind_eq_some_iff.mp h
    exact .cons first (ih later)

end Run

end EventHub.Library
