import EventHub.Library.Links

/-! Several rings over one set of links. No node is in two of them, so an edit of one ring
leaves the others as they are. -/

namespace EventHub.Library

variable {ι κ : Type*}

structure Rings (m : Links ι) (r : κ → List ι) : Prop where
  ring : ∀ i, m.Ring (r i)
  disjoint : ∀ {i j x}, x ∈ r i → x ∈ r j → i = j

namespace Rings
variable {m m' : Links ι} {r : κ → List ι} {i : κ} {a x : ι} {l k : List ι}

theorem congr (h : Rings m r) (same : ∀ i, m'.Agree m (· ∈ r i)) : Rings m' r where
  ring i := (h.ring i).congr (same i)
  disjoint := h.disjoint

theorem congr_out (h : Rings m r) (out : ∀ j, x ∉ r j) (same : m'.Agree m (· ≠ x)) :
    Rings m' r :=
  h.congr fun i y mem => same y fun eq => out i (eq ▸ mem)

theorem alone [DecidableEq ι] (h : Rings m r) (out : ∀ j, x ∉ r j) : Rings (m.alone x) r :=
  h.congr_out out (m.alone_agree x)

variable [DecidableEq κ]

theorem replace (h : Rings m r) (ring : m'.Ring l)
    (others : ∀ j, j ≠ i → m'.Agree m (· ∈ r j))
    (nodes : ∀ y ∈ l, y ∈ r i ∨ ∀ j, y ∉ r j) : Rings m' (Function.update r i l) where
  ring j := by
    by_cases eq : j = i
    · subst eq
      simpa using ring
    · simpa [eq] using (h.ring j).congr (others j eq)
  disjoint {p q y} memP memQ := by
    by_cases eqP : p = i <;> by_cases eqQ : q = i
    · exact eqP.trans eqQ.symm
    · subst eqP
      simp only [Function.update_self, Function.update_of_ne eqQ] at memP memQ
      rcases nodes y memP with mem | out
      · exact h.disjoint mem memQ
      · exact absurd memQ (out q)
    · subst eqQ
      simp only [Function.update_self, Function.update_of_ne eqP] at memP memQ
      rcases nodes y memQ with mem | out
      · exact h.disjoint memP mem
      · exact absurd memP (out p)
    · simp only [Function.update_of_ne eqP, Function.update_of_ne eqQ] at memP memQ
      exact h.disjoint memP memQ

theorem rotate (h : Rings m r) (at_i : r i = l ++ k) :
    Rings m (Function.update r i (k ++ l)) := by
  apply h.replace
  · exact (at_i ▸ h.ring i).rotate
  · exact fun j _ y _ => ⟨rfl, rfl⟩
  · intro y mem
    left
    rw [at_i]
    simpa [or_comm] using mem

theorem unlink_out (h : Rings m r) (at_i : r i = l ++ x :: k) (j : κ) :
    x ∉ Function.update r i (l ++ k) j := by
  intro mem
  by_cases eq : j = i
  · subst eq
    have nodup : (l ++ x :: k).Nodup := at_i ▸ (h.ring j).nodup
    rw [Function.update_self] at mem
    rw [List.nodup_middle, List.nodup_cons] at nodup
    exact nodup.1 mem
  · rw [Function.update_of_ne eq] at mem
    exact eq (h.disjoint mem (by simp [at_i]))

variable [DecidableEq ι]

theorem unlink (h : Rings m r) (at_i : r i = l ++ x :: k) :
    Rings (m.unlink x) (Function.update r i (l ++ k)) := by
  have ring : m.Ring (l ++ x :: k) := at_i ▸ h.ring i
  have mem_i : x ∈ r i := by simp [at_i]
  apply h.replace
  · exact ring.unlink
  · intro j ne y mem
    refine (h.ring i).unlink_agree mem_i y ?_
    exact fun mem' => ne (h.disjoint mem mem')
  · intro y mem
    left
    rw [at_i]
    simp only [List.mem_append, List.mem_cons] at mem ⊢
    tauto

omit [DecidableEq ι] in
theorem enter (h : Rings m r) (out : ∀ j, x ∉ r j) (ring : m'.Ring l)
    (agree : m'.Agree m (· ∉ x :: r i)) (nodes : ∀ y ∈ l, y ∈ x :: r i) :
    Rings m' (Function.update r i l) := by
  apply h.replace
  · exact ring
  · intro j ne y mem
    refine agree y fun mem' => ?_
    rcases List.mem_cons.mp mem' with eq | mem'
    · exact out j (eq ▸ mem)
    · exact ne (h.disjoint mem mem')
  · intro y mem
    rcases List.mem_cons.mp (nodes y mem) with eq | old
    · right
      exact eq ▸ out
    · left
      exact old

theorem add (h : Rings m r) (at_i : r i = a :: l) (out : ∀ j, x ∉ r j) :
    Rings (m.add x a) (Function.update r i (a :: x :: l)) := by
  have ring : m.Ring (a :: l) := at_i ▸ h.ring i
  apply h.enter out
  · exact ring.add (at_i ▸ out i)
  · exact at_i ▸ ring.add_agree x
  · intro y mem
    rw [at_i]
    simp only [List.mem_cons] at mem ⊢
    tauto

theorem addTail (h : Rings m r) (at_i : r i = a :: l) (out : ∀ j, x ∉ r j) :
    Rings (m.addTail x a) (Function.update r i (a :: (l ++ [x]))) := by
  have ring : m.Ring (a :: l) := at_i ▸ h.ring i
  apply h.enter out
  · exact ring.addTail (at_i ▸ out i)
  · exact at_i ▸ ring.addTail_agree x
  · intro y mem
    rw [at_i]
    simp only [List.mem_cons, List.mem_append, List.not_mem_nil, or_false] at mem ⊢
    tauto

section MoveHead
variable (h : Rings m r) (at_i : r i = a :: (l ++ x :: k))
include h at_i

omit [DecidableEq κ] in
theorem turnedBehind : (m.unlink a).Ring (x :: (k ++ l)) ∧ a ∉ x :: (k ++ l) := by
  have ring : m.Ring (a :: (l ++ x :: k)) := at_i ▸ h.ring i
  refine ⟨?_, fun mem => (List.nodup_cons.mp ring.nodup).1 ?_⟩
  · have turned := ring.unlink_first.rotate
    simpa using turned
  · simp only [List.mem_cons, List.mem_append] at mem ⊢
    tauto

omit [DecidableEq κ] in
theorem moveHead_agree : (m.move a x).Agree m (· ∉ r i) := by
  intro y out
  have outR : y ∉ a :: x :: (k ++ l) := fun mem => out (by
    rw [at_i]
    simp only [List.mem_cons, List.mem_append] at mem ⊢
    tauto)
  obtain ⟨next, prev⟩ := (h.turnedBehind at_i).1.add_agree a y outR
  obtain ⟨next', prev'⟩ := (h.ring i).unlink_agree (x := a) (by simp [at_i]) y out
  exact ⟨next.trans next', prev.trans prev'⟩

theorem moveHead : Rings (m.move a x) (Function.update r i (a :: (k ++ (l ++ [x])))) := by
  obtain ⟨rest, out⟩ := h.turnedBehind at_i
  have moved : (m.move a x).Ring (a :: (k ++ (l ++ [x]))) := by
    have turned := Links.Ring.rotate (l := [x]) (k := a :: (k ++ l)) (rest.add out)
    simpa [Links.move] using turned
  refine h.replace moved (fun j ne y mem => ?_) fun y mem => .inl ?_
  · exact h.moveHead_agree at_i y fun mem' => ne (h.disjoint mem mem')
  · rw [at_i]
    simp only [List.mem_cons, List.mem_append, List.not_mem_nil, or_false] at mem ⊢
    tauto

end MoveHead

end Rings

end EventHub.Library
