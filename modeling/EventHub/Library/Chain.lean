import Mathlib.Logic.Function.Basic
import Mathlib.Tactic.Ring

/-! Singly linked lists through a `next` function, null-terminated. -/

namespace EventHub.Library

variable {α : Type*}

/-- Following `next` from `p` visits `l` and arrives at `q`. -/
def Path (next : α → α) : α → List α → α → Prop
  | p, [], q => p = q
  | p, x :: l, q => p = x ∧ Path next (next x) l q

namespace Path
variable {next next' : α → α} {p q x : α} {l r : List α}

@[simp] theorem nil : Path next p [] q ↔ p = q := Iff.rfl

@[simp] theorem cons : Path next p (x :: l) q ↔ p = x ∧ Path next (next x) l q := Iff.rfl

theorem append : Path next p (l ++ r) q ↔ ∃ m, Path next p l m ∧ Path next m r q := by
  induction l generalizing p with
  | nil => simp
  | cons x l ih => simp [ih, and_assoc]

theorem snoc : Path next p (l ++ [x]) q ↔ Path next p l x ∧ next x = q := by
  simp [append]

theorem congr (h : Path next p l q) (agree : ∀ x ∈ l, next' x = next x) :
    Path next' p l q := by
  induction l generalizing p with
  | nil => exact h
  | cons x l ih =>
    obtain ⟨rfl, rest⟩ := h
    refine ⟨rfl, ?_⟩
    rw [agree p (by simp)]
    exact ih rest fun y mem => agree y (by simp [mem])

theorem relink (h : Path next p (l ++ x :: r) q) (agree : ∀ y ∈ l, next' y = next y) :
    Path next' p (l ++ [x]) (next' x) := by
  obtain ⟨m, front, rfl, _⟩ := append.mp h
  exact snoc.mpr ⟨front.congr agree, rfl⟩

theorem tail (h : Path next p (l ++ x :: r) q) : Path next (next x) r q := by
  obtain ⟨m, _, _, rest⟩ := append.mp h
  exact rest

theorem head (h : Path next p l q) : p = l.headD q := by
  cases l with
  | nil => exact h
  | cons => exact h.1

theorem last (h : Path next p (x :: l) q) : next (l.getLastD x) = q := by
  induction l generalizing p x with
  | nil => exact h.2
  | cons y l ih =>
    rw [List.getLastD_cons]
    exact ih h.2

theorem splice {m m' : List α} (h : Path next p (l ++ x :: (m ++ r)) q)
    (between : Path next' (next' x) m' (r.headD q)) (before : ∀ y ∈ l, next' y = next y)
    (after : ∀ y ∈ r, next' y = next y) : Path next' p (l ++ x :: (m' ++ r)) q := by
  obtain ⟨y, _, rest⟩ := append.mp h.tail
  obtain rfl := rest.head
  have front := h.relink before
  rw [List.append_cons]
  exact append.mpr ⟨_, front, append.mpr ⟨_, between, rest.congr after⟩⟩

theorem splice_last {m m' : List α} (h : Path next p (x :: l ++ (m ++ r)) q)
    (between : Path next' (next' (l.getLastD x)) m' (r.headD q))
    (before : ∀ y ∈ x :: l, y ≠ l.getLastD x → next' y = next y) (nodup : (x :: l).Nodup)
    (after : ∀ y ∈ r, next' y = next y) : Path next' p (x :: l ++ (m' ++ r)) q := by
  have cut : x :: l = (x :: l).dropLast ++ [l.getLastD x] := by
    rw [← List.getLast_eq_getLastD (List.cons_ne_nil x l), List.dropLast_concat_getLast]
  rw [cut, List.append_assoc, List.singleton_append] at h ⊢
  refine h.splice between (fun y mem => before y (List.dropLast_subset _ mem) ?_) after
  rintro rfl
  rw [cut, List.nodup_append] at nodup
  exact nodup.2.2 _ mem _ (by simp) rfl

end Path

section Search
variable [DecidableEq α]

/-- The pointers `(prev, pos)` at which a loop over the list stops: `pos` is the first
node from the given one on that is `null` or is not skipped. -/
def search (next : α → α) (null : α) (skip : α → Bool) : Nat → α → α → Option (α × α)
  | 0, _, _ => none
  | fuel + 1, prev, pos =>
    if pos ≠ null ∧ skip pos then search next null skip fuel pos (next pos)
    else some (prev, pos)

variable {next : α → α} {null p prev : α} {skip : α → Bool} {l r : List α} {fuel : Nat}

theorem search_of_path (path : Path next p (l ++ r) null) (nodes : ∀ x ∈ l, x ≠ null)
    (skipped : ∀ x ∈ l, skip x) (stops : ∀ x ∈ r.head?, skip x = false)
    (enough : l.length < fuel) :
    search next null skip fuel prev p = some (l.getLastD prev, r.headD null) := by
  induction l generalizing p prev fuel with
  | nil =>
    obtain ⟨fuel, rfl⟩ : ∃ k, fuel = k + 1 := ⟨fuel - 1, by simp at enough; omega⟩
    have start : p = r.headD null := path.head
    rw [search, if_neg, ← start]
    · rfl
    · cases r with
      | nil => simp [start]
      | cons x r => simp [start, stops x rfl]
  | cons x l ih =>
    obtain ⟨fuel, rfl⟩ : ∃ k, fuel = k + 1 := ⟨fuel - 1, by simp at enough; omega⟩
    obtain ⟨rfl, rest⟩ := path
    rw [search, if_pos ⟨nodes p (by simp), skipped p (by simp)⟩, List.getLastD_cons]
    refine ih rest ?_ ?_ (by simpa using enough)
    · exact fun y mem => nodes y (by simp [mem])
    · exact fun y mem => skipped y (by simp [mem])

end Search

end EventHub.Library
