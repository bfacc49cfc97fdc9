import Mathlib.Data.List.Pairwise
import Mathlib.Order.CompletePartialOrder
import Mathlib.Order.Interval.Set.Disjoint
import Mathlib.Order.Interval.Set.LinearOrder

/-! Sets cut into half-open spans. -/

namespace EventHub.Library

structure Span (α : Type*) where
  lo : α
  hi : α
deriving DecidableEq, Repr

def Span.cells {α : Type*} [Preorder α] (b : Span α) : Set α := Set.Ico b.lo b.hi

/-- The spans are disjoint and together are exactly `U`. -/
structure Tiles {α : Type*} [Preorder α] (U : Set α) (bs : List (Span α)) : Prop where
  disjoint : bs.Pairwise fun a b => Disjoint a.cells b.cells
  cover : ∀ x, x ∈ U ↔ ∃ b ∈ bs, x ∈ b.cells

namespace Tiles
variable {α : Type*} {U V : Set α}

section Preorder
variable [Preorder α] {b : Span α} {bs cs : List (Span α)}

theorem nil : Tiles (∅ : Set α) [] := ⟨.nil, by simp⟩

theorem perm (h : Tiles U bs) (p : bs.Perm cs) : Tiles U cs where
  disjoint := (p.pairwise_iff fun {_ _} d => Disjoint.symm d).mp h.disjoint
  cover x := by simp only [h.cover, p.mem_iff]

theorem subset (h : Tiles U bs) (mem : b ∈ bs) : b.cells ⊆ U :=
  fun x inside => (h.cover x).mpr ⟨b, mem, inside⟩

theorem eq_of_mem (h : Tiles U bs) {c : Span α} {x : α} (memB : b ∈ bs) (memC : c ∈ bs)
    (inB : x ∈ b.cells) (inC : x ∈ c.cells) : b = c := by
  by_contra ne
  have : Std.Symm fun a b : Span α => Disjoint a.cells b.cells := ⟨fun _ _ d => Disjoint.symm d⟩
  exact Set.disjoint_left.mp (h.disjoint.forall memB memC ne) inB inC

theorem mem_left_iff (h : Tiles U (bs ++ cs)) {x : α} :
    (∃ b ∈ bs, x ∈ b.cells) ↔ x ∈ U ∧ ¬∃ c ∈ cs, x ∈ c.cells := by
  have apart := (List.pairwise_append.mp h.disjoint).2.2
  rw [h.cover]
  constructor
  · rintro ⟨b, mem, inside⟩
    refine ⟨⟨b, List.mem_append_left _ mem, inside⟩, ?_⟩
    rintro ⟨c, memC, insideC⟩
    exact Set.disjoint_left.mp (apart b mem c memC) inside insideC
  · rintro ⟨⟨b, mem, inside⟩, outside⟩
    rcases List.mem_append.mp mem with mem | mem
    · exact ⟨b, mem, inside⟩
    · exact absurd ⟨b, mem, inside⟩ outside

theorem congr (h : Tiles U bs) (same : ∀ x, x ∈ U ↔ x ∈ V) : Tiles V bs :=
  ⟨h.disjoint, fun x => (same x).symm.trans (h.cover x)⟩

theorem cons (h : Tiles U bs) (apart : Disjoint b.cells U) :
    Tiles (b.cells ∪ U) (b :: bs) where
  disjoint := List.pairwise_cons.mpr
    ⟨fun _ mem => apart.mono_right (h.subset mem), h.disjoint⟩
  cover x := by simp [h.cover]

end Preorder

section LinearOrder
variable [LinearOrder α] {bs : List (Span α)} {lo mid hi : α}

theorem cut (left : lo ≤ mid) (right : mid ≤ hi) :
    Tiles U (⟨lo, hi⟩ :: bs) ↔ Tiles U (⟨lo, mid⟩ :: ⟨mid, hi⟩ :: bs) := by
  have union : Span.cells ⟨lo, hi⟩ = Span.cells ⟨lo, mid⟩ ∪ Span.cells ⟨mid, hi⟩ :=
    (Set.Ico_union_Ico_eq_Ico left right).symm
  have apart : Disjoint (Span.cells ⟨lo, mid⟩) (Span.cells ⟨mid, hi⟩) :=
    Set.Ico_disjoint_Ico_same
  constructor
  · rintro ⟨disjoint, cover⟩
    obtain ⟨first, rest⟩ := List.pairwise_cons.mp disjoint
    simp only [union, Set.disjoint_union_left] at first
    refine ⟨.cons ?_ (.cons (fun b mem => (first b mem).2) rest), fun x => ?_⟩
    · simp only [List.mem_cons, forall_eq_or_imp]
      exact ⟨apart, fun b mem => (first b mem).1⟩
    · simp [cover, union, or_assoc]
  · rintro ⟨disjoint, cover⟩
    obtain ⟨first, rest⟩ := List.pairwise_cons.mp disjoint
    obtain ⟨second, rest⟩ := List.pairwise_cons.mp rest
    refine ⟨.cons (fun b mem => ?_) rest, fun x => ?_⟩
    · rw [union, Set.disjoint_union_left]
      exact ⟨first b (by simp [mem]), second b mem⟩
    · simp [cover, union, or_assoc]

end LinearOrder

end Tiles

/-- Disjoint spans that are not empty lie one after the other. -/
theorem Span.before_or_after {α : Type*} [LinearOrder α] {a b : Span α}
    (apart : Disjoint a.cells b.cells) (ha : a.lo < a.hi) (hb : b.lo < b.hi) :
    a.hi ≤ b.lo ∨ b.hi ≤ a.lo := by
  have h := Set.Ico_disjoint_Ico.mp apart
  rcases le_total a.hi b.hi with first | first <;>
    rcases le_total a.lo b.lo with start | start <;>
    simp [first, start, ha.not_ge, hb.not_ge] at h <;> simp [h]

namespace Span
variable {α : Type*} [LinearOrder α] {b c : Span α} {bs cs : List (Span α)} {x : α}

theorem lo_le (after : ∀ d ∈ bs, b.hi < d.lo) (filled : b.lo < b.hi)
    (inside : ∃ d ∈ b :: bs, x ∈ d.cells) : b.lo ≤ x := by
  obtain ⟨d, mem, lo, -⟩ := inside
  rcases List.mem_cons.mp mem with rfl | mem
  · exact lo
  · exact (filled.trans (after d mem)).le.trans lo

theorem hi_le (start : b.lo = c.lo) (after : ∀ d ∈ bs, b.hi < d.lo) (filled : b.lo < b.hi)
    (covered : ∀ x ∈ c.cells, ∃ d ∈ b :: bs, x ∈ d.cells) : c.hi ≤ b.hi := by
  by_contra! longer
  obtain ⟨d, mem, lo, hi⟩ := covered b.hi ⟨start ▸ filled.le, longer⟩
  rcases List.mem_cons.mp mem with rfl | mem
  · exact lt_irrefl _ hi
  · exact (after d mem).not_ge lo

theorem mem_tail_iff (after : ∀ d ∈ bs, b.hi < d.lo) :
    (∃ d ∈ bs, x ∈ d.cells) ↔ (∃ d ∈ b :: bs, x ∈ d.cells) ∧ x ∉ b.cells := by
  constructor
  · rintro ⟨d, mem, inside⟩
    exact ⟨⟨d, List.mem_cons_of_mem _ mem, inside⟩,
      fun first => ((after d mem).trans_le inside.1).not_gt first.2⟩
  · rintro ⟨⟨d, mem, inside⟩, outside⟩
    rcases List.mem_cons.mp mem with rfl | mem
    · exact absurd inside outside
    · exact ⟨d, mem, inside⟩

theorem eq_of_cells (gapsB : bs.Pairwise fun a b => a.hi < b.lo)
    (gapsC : cs.Pairwise fun a b => a.hi < b.lo) (filledB : ∀ b ∈ bs, b.lo < b.hi)
    (filledC : ∀ c ∈ cs, c.lo < c.hi)
    (same : ∀ x, (∃ b ∈ bs, x ∈ b.cells) ↔ ∃ c ∈ cs, x ∈ c.cells) : bs = cs := by
  induction bs generalizing cs with
  | nil =>
    cases cs with
    | nil => rfl
    | cons c cs =>
      obtain ⟨_, mem, -⟩ := (same c.lo).mpr ⟨c, by simp, le_refl _, filledC c (by simp)⟩
      cases mem
  | cons b bs ih =>
    cases cs with
    | nil =>
      obtain ⟨_, mem, -⟩ := (same b.lo).mp ⟨b, by simp, le_refl _, filledB b (by simp)⟩
      cases mem
    | cons c cs =>
      obtain ⟨afterB, restB⟩ := List.pairwise_cons.mp gapsB
      obtain ⟨afterC, restC⟩ := List.pairwise_cons.mp gapsC
      have someB := filledB b (by simp)
      have someC := filledC c (by simp)
      have lo : b.lo = c.lo := le_antisymm
        (lo_le afterB someB ((same c.lo).mpr ⟨c, by simp, le_refl _, someC⟩))
        (lo_le afterC someC ((same b.lo).mp ⟨b, by simp, le_refl _, someB⟩))
      have hi : b.hi = c.hi := le_antisymm
        (hi_le lo.symm afterC someC fun x inside => (same x).mp ⟨b, by simp, inside⟩)
        (hi_le lo afterB someB fun x inside => (same x).mpr ⟨c, by simp, inside⟩)
      obtain rfl : b = c := by
        cases b
        cases c
        exact congrArg₂ Span.mk lo hi
      refine congrArg (b :: ·) (ih restB restC (fun d mem => filledB d (by simp [mem]))
        (fun d mem => filledC d (by simp [mem])) fun x => ?_)
      rw [mem_tail_iff afterB, mem_tail_iff afterC, same]

end Span

end EventHub.Library
