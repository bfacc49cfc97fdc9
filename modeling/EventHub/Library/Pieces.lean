import Mathlib.Data.List.Nodup
import Mathlib.Data.List.Perm.Basic

/-! A memory seen as separate pieces. A piece says what stands at the places of its
footprint; pieces with disjoint footprints change one at a time. -/

namespace EventHub.Library

/-- What it is for a memory to hold a piece, which depends on the places of its footprint
only. `same a m m'` is that the memories agree at `a`. -/
structure Layout (M P A : Type*) where
  holds : M → P → Prop
  foot : P → List A
  same : A → M → M → Prop
  frame : ∀ {m m' : M} {p : P}, (∀ a ∈ foot p, same a m m') → holds m p → holds m' p

namespace Layout
variable {M P A : Type*} {L : Layout M P A} {m m' : M} {ps qs : List P} {p q : P} {i j : ℕ}

def places (L : Layout M P A) (ps : List P) : List A := ps.flatMap L.foot

/-- The memory holds the pieces at places of their own. -/
structure Sep (L : Layout M P A) (m : M) (ps : List P) : Prop where
  holds : ∀ p ∈ ps, L.holds m p
  nodup : (L.places ps).Nodup

theorem places_set (get : ps[i]? = some p) (foot : L.foot q = L.foot p) :
    L.places (ps.set i q) = L.places ps := by
  induction ps generalizing i with
  | nil => rfl
  | cons r ps ih =>
    cases i with
    | zero =>
      cases get
      simp [places, foot]
    | succ i =>
      have tail := ih (i := i) (by simpa using get)
      simp_all [places]

namespace Sep

theorem get (h : L.Sep m ps) (i : ℕ) (get : ps[i]? = some p) : L.holds m p :=
  h.holds p (List.mem_of_getElem? get)

theorem mem_places (get : ps[i]? = some p) {a : A} (mem : a ∈ L.foot p) :
    a ∈ L.places ps :=
  List.mem_flatMap.mpr ⟨p, List.mem_of_getElem? get, mem⟩

theorem disjoint (h : L.Sep m ps) (hp : ps[i]? = some p) (hq : ps[j]? = some q)
    (ne : i ≠ j) : ∀ a ∈ L.foot p, a ∉ L.foot q := by
  have nodup := h.nodup
  clear h
  induction ps generalizing i j with
  | nil => cases hp
  | cons r ps ih =>
    obtain ⟨-, rest, apart⟩ := List.nodup_append.mp (by simpa [places] using nodup)
    intro a inP inQ
    cases i with
    | zero =>
      cases hp
      cases j with
      | zero => exact ne rfl
      | succ j => exact apart a inP a (mem_places (L := L) (by simpa using hq) inQ) rfl
    | succ i =>
      cases j with
      | zero =>
        cases hq
        exact apart a inQ a (mem_places (L := L) (by simpa using hp) inP) rfl
      | succ j =>
        exact ih (by simpa using hp) (by simpa using hq) (by omega) rest a inP inQ

theorem ne (h : L.Sep m ps) {a b : A} (i j : ℕ) (hp : ps[i]? = some p)
    (hq : ps[j]? = some q) (apart : i ≠ j) (ha : a ∈ L.foot p) (hb : b ∈ L.foot q) : a ≠ b := by
  rintro rfl
  exact h.disjoint hp hq apart a ha hb

theorem set (h : L.Sep m ps) (get : ps[i]? = some p) (foot : L.foot q = L.foot p)
    (new : L.holds m' q) (frame : ∀ a, a ∉ L.foot p → L.same a m m') :
    L.Sep m' (ps.set i q) where
  holds r mem := by
    obtain ⟨j, at'⟩ := List.mem_iff_getElem?.mp mem
    rcases eq_or_ne i j with rfl | ne
    · rw [List.getElem?_set_self (List.getElem?_eq_some_iff.mp get).1] at at'
      cases at'
      exact new
    · rw [List.getElem?_set_ne ne] at at'
      exact L.frame (fun a inR => frame a (h.disjoint at' get ne.symm a inR)) (h.get j at')
  nodup := by
    rw [places_set get foot]
    exact h.nodup

theorem foot_nodup (h : L.Sep m ps) (get : ps[i]? = some p) : (L.foot p).Nodup :=
  (List.nodup_flatMap.mp h.nodup).1 p (List.mem_of_getElem? get)

theorem pick (h : L.Sep m ps) (is : List ℕ) (nodup : is.Nodup) :
    L.Sep m (is.filterMap fun i => ps[i]?) where
  holds p mem := by
    obtain ⟨i, -, at'⟩ := List.mem_filterMap.mp mem
    exact h.get i at'
  nodup := by
    refine List.nodup_flatMap.mpr ⟨fun p mem => ?_, List.pairwise_filterMap.mpr ?_⟩
    · obtain ⟨i, -, at'⟩ := List.mem_filterMap.mp mem
      exact h.foot_nodup at'
    · exact nodup.imp fun ne p hp q hq => h.disjoint hp hq ne

theorem cons (h : L.Sep m ps) (holds : L.holds m p) (nodup : (L.foot p).Nodup)
    (free : ∀ a ∈ L.foot p, a ∉ L.places ps) : L.Sep m (p :: ps) where
  holds := List.forall_mem_cons.mpr ⟨holds, h.holds⟩
  nodup := by
    rw [places, List.flatMap_cons]
    exact List.nodup_append.mpr ⟨nodup, h.nodup, fun a mem b mem' eq => free a mem (eq ▸ mem')⟩

theorem keep (h : L.Sep m ps) (frame : ∀ a ∈ L.places ps, L.same a m m') : L.Sep m' ps where
  holds p mem := L.frame
    (fun a inP => frame a (List.mem_flatMap.mpr ⟨p, mem, inP⟩)) (h.holds p mem)
  nodup := h.nodup

end Sep

theorem sep_cons_iff (qs : List P) (holds : L.holds m p ↔ ∀ q ∈ qs, L.holds m q)
    (perm : (L.foot p).Perm (L.places qs)) : L.Sep m (p :: ps) ↔ L.Sep m (qs ++ ps) := by
  have foot : (L.places (p :: ps)).Perm (L.places (qs ++ ps)) := by
    simpa [places] using perm.append_right (ps.flatMap L.foot)
  have parts : (∀ q ∈ p :: ps, L.holds m q) ↔ ∀ q ∈ qs ++ ps, L.holds m q := by
    rw [List.forall_mem_cons, List.forall_mem_append, holds]
  exact ⟨fun h => ⟨parts.mp h.holds, foot.nodup_iff.mp h.nodup⟩,
    fun h => ⟨parts.mpr h.holds, foot.nodup_iff.mpr h.nodup⟩⟩

end Layout

end EventHub.Library
