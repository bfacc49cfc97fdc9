import EventHub.Library.Rings

/-! Edits of a ring at any of its nodes, a ring spliced into another, and rings read
backwards. -/

namespace EventHub.Library
namespace Links
variable {ι : Type*} {m : Links ι} {a b p x : ι} {l k back : List ι}

def flip (m : Links ι) : Links ι := ⟨m.prev, m.next⟩

theorem Seg.flip (h : m.Seg a l b) : m.flip.Seg b l.reverse a := by
  induction l generalizing a with
  | nil => exact ⟨h.2, h.1⟩
  | cons x l ih =>
    obtain ⟨next, prev, rest⟩ := h
    rw [List.reverse_cons]
    exact seg_append.mpr ⟨ih rest, prev, next⟩

theorem Ring.flip (h : m.Ring (a :: l)) : m.flip.Ring (a :: l.reverse) := by
  refine ⟨?_, h.2.flip⟩
  have same : (a :: l.reverse).Perm (a :: l) := l.reverse_perm.cons a
  exact same.nodup_iff.mpr h.nodup

theorem Ring.next_head (h : m.Ring (a :: l)) : m.next a = l.headD a := by
  cases l with
  | nil => exact (ring_singleton.mp h).1
  | cons b l => exact h.next

theorem Ring.next_mid (h : m.Ring (a :: (l ++ x :: k))) : m.next x = k.headD a := by
  have turned : m.Ring (x :: k ++ a :: l) := Ring.rotate (l := a :: l) (k := x :: k) h
  cases k with
  | nil => exact turned.next
  | cons b k => exact turned.next

theorem Ring.prev_head_mem (h : m.Ring (a :: x :: l)) : m.prev a ∈ x :: l := by
  obtain ⟨k, z, eq⟩ := List.eq_nil_or_concat' (x :: l) |>.resolve_left (List.cons_ne_nil x l)
  rw [eq] at h ⊢
  rw [h.prev_last]
  simp

section Edit
variable [DecidableEq ι]

theorem Ring.add_mid (h : m.Ring (k ++ p :: l)) (out : x ∉ k ++ p :: l) :
    (m.add x p).Ring (k ++ p :: x :: l) := by
  have turned : m.Ring (p :: (l ++ k)) := by simpa using h.rotate
  have fresh : x ∉ p :: (l ++ k) := fun mem => out (by
    simp only [List.mem_cons, List.mem_append] at mem ⊢
    tauto)
  have added : (m.add x p).Ring ((p :: x :: l) ++ k) := by simpa using turned.add fresh
  exact added.rotate

theorem Ring.addTail_mid (h : m.Ring (k ++ p :: l)) (out : x ∉ k ++ p :: l) :
    (m.addTail x p).Ring (k ++ x :: p :: l) := by
  have turned : m.Ring (p :: (l ++ k)) := by simpa using h.rotate
  have fresh : x ∉ p :: (l ++ k) := fun mem => out (by
    simp only [List.mem_cons, List.mem_append] at mem ⊢
    tauto)
  have added : (m.addTail x p).Ring ((p :: l) ++ (k ++ [x])) := by
    simpa using turned.addTail fresh
  simpa using added.rotate

theorem Ring.add_mid_agree (h : m.Ring l) (mem : p ∈ l) (x : ι) :
    (m.add x p).Agree m (· ∉ x :: l) := by
  obtain ⟨front, back, rfl⟩ := List.append_of_mem mem
  have turned : m.Ring (p :: (back ++ front)) := by simpa using h.rotate
  refine fun y out => turned.add_agree x y fun mem => out ?_
  simp only [List.mem_cons, List.mem_append] at mem ⊢
  tauto

theorem Ring.addTail_mid_agree (h : m.Ring l) (mem : p ∈ l) (x : ι) :
    (m.addTail x p).Agree m (· ∉ x :: l) := by
  obtain ⟨front, back, rfl⟩ := List.append_of_mem mem
  have turned : m.Ring (p :: (back ++ front)) := by simpa using h.rotate
  refine fun y out => turned.addTail_agree x y fun mem => out ?_
  simp only [List.mem_cons, List.mem_append] at mem ⊢
  tauto

/-- The nodes behind the head `list` come behind `head`; the links of `list` itself stay. -/
def splice (m : Links ι) (list head : ι) : Links ι :=
  let first := m.next list
  let last := m.prev list
  let after := m.next head
  (((m.setPrev first head).setNext head first).setNext last after).setPrev after last

@[simp] theorem splice_next (m : Links ι) (list head y : ι) :
    (m.splice list head).next y =
      if y = m.prev list then m.next head else if y = head then m.next list else m.next y := by
  simp [splice, setNext, setPrev, Function.update_apply]

@[simp] theorem splice_prev (m : Links ι) (list head y : ι) :
    (m.splice list head).prev y =
      if y = m.next head then m.prev list else if y = m.next list then head else m.prev y := by
  simp [splice, setNext, setPrev, Function.update_apply]

section Splice
variable (h : m.Ring (p :: back)) (source : m.Ring (a :: x :: l))
  (apart : ∀ y ∈ p :: back, y ∉ a :: x :: l)
include h source apart

theorem splice_front : (m.splice a p).Seg p (x :: l) (m.next p) := by
  have outP : p ∉ a :: x :: l := apart p (by simp)
  have outN : m.next p ∉ a :: x :: l := apart _ h.next_mem
  have first : m.next a = x := source.next
  have nodup' : (x :: l).Nodup := (List.nodup_cons.mp source.nodup).2
  obtain ⟨-, -, -, inner⟩ := source
  rcases List.eq_nil_or_concat' l with rfl | ⟨l, z, rfl⟩
  · obtain ⟨-, last⟩ := inner
    have neX : p ≠ x := fun eq => outP (by simp [eq])
    have neN : x ≠ m.next p := fun eq => outN (by simp [← eq])
    simp [Seg, first, last, neX, neN]
  · obtain ⟨inner, -, last⟩ := seg_append.mp inner
    have neZ : p ≠ z := fun eq => outP (by simp [eq])
    have neX : x ≠ m.next p := fun eq => outN (by simp [← eq])
    have end_ : z ∉ x :: l := fun mem => by
      rw [← List.cons_append] at nodup'
      exact (List.nodup_append.mp nodup').2.2 z mem z (by simp) rfl
    refine ⟨by simp [first, last, neZ], by simp [first, neX], seg_append.mpr ⟨?_, ?_⟩⟩
    · refine inner.congr (fun y mem => ?_) fun y mem => ?_
      · have neZ : y ≠ z := fun eq => end_ (eq ▸ mem)
        have neP : y ≠ p := fun eq => outP (by
          subst eq
          simp only [List.mem_cons, List.mem_append] at mem ⊢
          tauto)
        simp [last, neZ, neP]
      · have neX : y ≠ x := fun eq => (List.nodup_cons.mp nodup').1 (eq ▸ mem)
        have neN : y ≠ m.next p := fun eq => outN (by
          simp only [List.mem_cons]
          exact .inr (.inr (eq ▸ mem)))
        simp [first, neX, neN]
    · simp [Seg, last]

theorem Ring.splice : (m.splice a p).Ring (p :: (x :: l ++ back)) := by
  have front := splice_front h source apart
  have first : m.next a = x := source.next
  have last : m.prev a ∈ x :: l := source.prev_head_mem
  refine ⟨?_, ?_⟩
  · have inner : (x :: l).Nodup := (List.nodup_cons.mp source.nodup).2
    have outer := List.nodup_cons.mp h.nodup
    refine List.nodup_cons.mpr ⟨fun mem => ?_, inner.append outer.2 fun y mem mem' => ?_⟩
    · rcases List.mem_append.mp mem with mem | mem
      · exact apart p (by simp) (List.mem_cons_of_mem _ mem)
      · exact outer.1 mem
    · exact apart y (List.mem_cons_of_mem _ mem') (List.mem_cons_of_mem _ mem)
  · cases back with
    | nil =>
      rw [(ring_singleton.mp h).1] at front
      simpa using front
    | cons b back =>
      rw [h.next] at front
      obtain ⟨outP, outB, -⟩ := List.nodup_cons.mp h.nodup |>.imp_right List.nodup_cons.mp
      refine seg_append.mpr ⟨front, h.2.2.2.congr (fun y mem => ?_) fun y mem => ?_⟩
      · have neP : y ≠ p := fun eq => outP (eq ▸ mem)
        have neL : y ≠ m.prev a := fun eq =>
          apart y (List.mem_cons_of_mem _ mem) (List.mem_cons_of_mem _ (eq ▸ last))
        simp [neP, neL]
      · have mem' : y ∈ p :: b :: back := by
          simp only [List.mem_cons, List.mem_append, List.not_mem_nil, or_false] at mem ⊢
          tauto
        have neB : y ≠ b := by
          rcases List.mem_append.mp mem with mem | mem
          · exact fun eq => outB (eq ▸ mem)
          · exact fun eq => outP (by simp [← eq, List.mem_singleton.mp mem])
        have neX : y ≠ x := fun eq => apart y mem' (by simp [eq])
        simp [h.next, first, neB, neX]

omit apart in
theorem splice_agree : (m.splice a p).Agree m fun y => y ∉ p :: back ∧ y ∉ x :: l := by
  rintro y ⟨out, out'⟩
  have first : m.next a = x := source.next
  have neX : y ≠ x := fun eq => out' (by simp [eq])
  have neL : y ≠ m.prev a := fun eq => out' (eq ▸ source.prev_head_mem)
  have neP : y ≠ p := fun eq => out (by simp [eq])
  have neN : y ≠ m.next p := fun eq => out (eq ▸ h.next_mem)
  simp [first, neX, neL, neP, neN]

end Splice

end Edit

end Links
end EventHub.Library
