import EventHub.Library.Rings

/-! Edits of circular lists and the nodes whose links they touch. What an edit does at the
nodes that it touches depends on these alone, and it leaves the others as they are. -/

namespace EventHub.Library

inductive LinkEdit (ι : Type*) where
  | alone (x : ι)
  | addTail (x head : ι)
  | delInit (x : ι)
  | move (x head : ι)

namespace LinkEdit
variable {ι : Type*} [DecidableEq ι] {m m' : Links ι}

def apply (m : Links ι) : LinkEdit ι → Links ι
  | alone x => m.alone x
  | addTail x head => m.addTail x head
  | delInit x => m.delInit x
  | move x head => m.move x head

/-- The nodes with a link that is read or written. -/
def touched (m : Links ι) : LinkEdit ι → List ι
  | alone x => [x]
  | addTail x head => [x, head, m.prev head]
  | delInit x => [x, m.next x, m.prev x]
  | move x head => [x, m.next x, m.prev x, head, (m.unlink x).next head]

def applyAll (m : Links ι) (es : List (LinkEdit ι)) : Links ι := es.foldl apply m

def touchedAll (m : Links ι) : List (LinkEdit ι) → List ι
  | [] => []
  | e :: es => e.touched m ++ touchedAll (e.apply m) es

theorem apply_agree (m : Links ι) (e : LinkEdit ι) :
    (e.apply m).Agree m (· ∉ e.touched m) := by
  intro y out
  cases e with
  | alone x => exact m.alone_agree x y (by simpa [touched] using out)
  | addTail x head =>
    simp only [touched, List.mem_cons, List.not_mem_nil, or_false, not_or] at out
    simp [apply, Links.addTail, out]
  | delInit x =>
    simp only [touched, List.mem_cons, List.not_mem_nil, or_false, not_or] at out
    simp [apply, Links.delInit, Links.unlink, out]
  | move x head =>
    simp only [touched, List.mem_cons, List.not_mem_nil, or_false, not_or] at out
    obtain ⟨neX, neN, neP, neH, neA⟩ := out
    have unlinked : (m.unlink x).next y = m.next y ∧ (m.unlink x).prev y = m.prev y := by
      simp [Links.unlink, neN, neP]
    simp [apply, Links.move, Links.add, neX, neH, neA, unlinked]

theorem touched_congr (e : LinkEdit ι) (same : m'.Agree m (· ∈ e.touched m)) :
    e.touched m' = e.touched m ∧ (e.apply m').Agree (e.apply m) (· ∈ e.touched m) := by
  cases e with
  | alone x =>
    refine ⟨rfl, fun y mem => ?_⟩
    have eq : y = x := by simpa [touched] using mem
    simp [apply, eq]
  | addTail x head =>
    have atHead := same head (by simp [touched])
    refine ⟨by rw [touched, touched, atHead.2], fun y mem => ?_⟩
    obtain ⟨next, prev⟩ := same y mem
    simp [apply, Links.addTail, atHead.2, next, prev]
  | delInit x =>
    have atX := same x (by simp [touched])
    refine ⟨by rw [touched, touched, atX.1, atX.2], fun y mem => ?_⟩
    obtain ⟨next, prev⟩ := same y mem
    simp [apply, Links.delInit, Links.unlink, atX.1, atX.2, next, prev]
  | move x head =>
    have atX := same x (by simp [touched])
    have atHead := same head (by simp [touched])
    have first : (m'.unlink x).next head = (m.unlink x).next head := by
      simp [Links.unlink, atX.1, atX.2, atHead.1]
    refine ⟨by rw [touched, touched, atX.1, atX.2, first], fun y mem => ?_⟩
    obtain ⟨next, prev⟩ := same y mem
    have unlinked : (m'.unlink x).next y = (m.unlink x).next y ∧
        (m'.unlink x).prev y = (m.unlink x).prev y := by
      simp [Links.unlink, atX.1, atX.2, next, prev]
    simp [apply, Links.move, Links.add, first, unlinked]

theorem applyAll_agree (m : Links ι) (es : List (LinkEdit ι)) :
    (applyAll m es).Agree m (· ∉ touchedAll m es) := by
  induction es generalizing m with
  | nil => exact fun y _ => ⟨rfl, rfl⟩
  | cons e es ih =>
    intro y out
    obtain ⟨outE, outEs⟩ := not_or.mp fun mem => out (List.mem_append.mpr mem)
    obtain ⟨next, prev⟩ := ih (e.apply m) y outEs
    obtain ⟨next', prev'⟩ := apply_agree m e y outE
    exact ⟨next.trans next', prev.trans prev'⟩

theorem touchedAll_congr (es : List (LinkEdit ι)) (same : m'.Agree m (· ∈ touchedAll m es)) :
    touchedAll m' es = touchedAll m es ∧
      (applyAll m' es).Agree (applyAll m es) (· ∈ touchedAll m es) := by
  induction es generalizing m m' with
  | nil => exact ⟨rfl, fun y mem => by cases mem⟩
  | cons e es ih =>
    obtain ⟨touches, first⟩ := touched_congr e fun y mem => same y (List.mem_append_left _ mem)
    -- behind the first edit the two agree at all the nodes
    have between : (e.apply m').Agree (e.apply m) (· ∈ touchedAll m (e :: es)) := by
      intro y mem
      by_cases memE : y ∈ e.touched m
      · exact first y memE
      · obtain ⟨next, prev⟩ := apply_agree m e y memE
        obtain ⟨next', prev'⟩ := apply_agree m' e y (touches ▸ memE)
        obtain ⟨nextS, prevS⟩ := same y mem
        exact ⟨next'.trans (nextS.trans next.symm), prev'.trans (prevS.trans prev.symm)⟩
    obtain ⟨later, rest⟩ := ih fun y mem => between y (List.mem_append_right _ mem)
    refine ⟨by rw [touchedAll, touchedAll, touches, later], fun y mem => ?_⟩
    by_cases memEs : y ∈ touchedAll (e.apply m) es
    · exact rest y memEs
    · obtain ⟨next, prev⟩ := applyAll_agree (e.apply m) es y memEs
      obtain ⟨next', prev'⟩ := applyAll_agree (e.apply m') es y (later ▸ memEs)
      obtain ⟨nextB, prevB⟩ := between y mem
      exact ⟨next'.trans (nextB.trans next.symm), prev'.trans (prevB.trans prev.symm)⟩

theorem applyAll_overwrite {es : List (LinkEdit ι)} {y : ι} (out : y ∉ touchedAll m es) (n p : ι) :
    applyAll ((m.setNext y n).setPrev y p) es = ((applyAll m es).setNext y n).setPrev y p := by
  have at_ : ∀ (k : Links ι) (z : ι), ((k.setNext y n).setPrev y p).next z =
      (if z = y then n else k.next z) ∧ ((k.setNext y n).setPrev y p).prev z =
      if z = y then p else k.prev z := by
    intro k z
    simp [Links.setNext, Links.setPrev, Function.update_apply]
  have same : ((m.setNext y n).setPrev y p).Agree m (· ∈ touchedAll m es) := by
    intro z mem
    have ne : z ≠ y := fun eq => out (eq ▸ mem)
    obtain ⟨next, prev⟩ := at_ m z
    rw [next, prev, if_neg ne, if_neg ne]
    exact ⟨rfl, rfl⟩
  obtain ⟨touches, inside⟩ := touchedAll_congr es same
  have every : ∀ z, (applyAll ((m.setNext y n).setPrev y p) es).next z =
      (((applyAll m es).setNext y n).setPrev y p).next z ∧
      (applyAll ((m.setNext y n).setPrev y p) es).prev z =
      (((applyAll m es).setNext y n).setPrev y p).prev z := by
    intro z
    obtain ⟨nextA, prevA⟩ := at_ (applyAll m es) z
    obtain ⟨nextM, prevM⟩ := at_ m z
    by_cases mem : z ∈ touchedAll m es
    · have ne : z ≠ y := fun eq => out (eq ▸ mem)
      rw [nextA, prevA, if_neg ne, if_neg ne]
      exact inside z mem
    · obtain ⟨next, prev⟩ := applyAll_agree m es z mem
      obtain ⟨next', prev'⟩ := applyAll_agree _ es z (touches ▸ mem)
      rw [next', prev', nextA, prevA, nextM, prevM, next, prev]
      exact ⟨rfl, rfl⟩
  generalize applyAll ((m.setNext y n).setPrev y p) es = a at every
  generalize ((applyAll m es).setNext y n).setPrev y p = b at every
  obtain ⟨nextA, prevA⟩ := a
  obtain ⟨nextB, prevB⟩ := b
  congr
  · exact funext fun z => (every z).1
  · exact funext fun z => (every z).2

end LinkEdit

end EventHub.Library
