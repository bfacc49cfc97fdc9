import Mathlib.Logic.Function.Basic
import Mathlib.Data.List.Nodup

/-! Circular doubly linked lists. Every node has a successor and a predecessor; a list is
a ring of nodes, with its head among them or not. An edit of one ring leaves the nodes of
the other rings alone. -/

namespace EventHub.Library

structure Links (ι : Type*) where
  next : ι → ι
  prev : ι → ι

namespace Links
variable {ι : Type*}

/-- From `a` over the nodes of `l` to `b`, linked both ways. -/
def Seg (m : Links ι) : ι → List ι → ι → Prop
  | a, [], b => m.next a = b ∧ m.prev b = a
  | a, x :: l, b => m.next a = x ∧ m.prev x = a ∧ Seg m x l b

/-- The nodes of `l`, in this order, and back to the first. -/
def Ring (m : Links ι) : List ι → Prop
  | [] => True
  | a :: l => (a :: l).Nodup ∧ m.Seg a l a

/-- The same links at the nodes of `s`. -/
def Agree (m' m : Links ι) (s : ι → Prop) : Prop :=
  ∀ y, s y → m'.next y = m.next y ∧ m'.prev y = m.prev y

variable {m m' : Links ι} {a b x : ι} {l k : List ι}

theorem seg_append : m.Seg a (l ++ x :: k) b ↔ m.Seg a l x ∧ m.Seg x k b := by
  induction l generalizing a with
  | nil => simp [Seg, and_assoc]
  | cons y l ih => simp [Seg, ih, and_assoc]

theorem Seg.congr (h : m.Seg a l b) (next : ∀ y ∈ a :: l, m'.next y = m.next y)
    (prev : ∀ y ∈ l ++ [b], m'.prev y = m.prev y) : m'.Seg a l b := by
  induction l generalizing a with
  | nil =>
    obtain ⟨hn, hp⟩ := h
    exact ⟨(next a (by simp)).trans hn, (prev b (by simp)).trans hp⟩
  | cons x l ih =>
    obtain ⟨hn, hp, rest⟩ := h
    exact ⟨(next a (by simp)).trans hn, (prev x (by simp)).trans hp,
      ih rest (fun y mem => next y (List.mem_cons_of_mem _ mem))
        fun y mem => prev y (List.mem_cons_of_mem _ mem)⟩

theorem Ring.nodup (h : m.Ring l) : l.Nodup := by
  cases l with
  | nil => exact .nil
  | cons a l => exact h.1

theorem Ring.congr (h : m.Ring l) (same : m'.Agree m (· ∈ l)) : m'.Ring l := by
  cases l with
  | nil => trivial
  | cons a l =>
    refine ⟨h.1, h.2.congr (fun y mem => (same y mem).1) fun y mem => (same y ?_).2⟩
    simpa [or_comm] using mem

theorem ring_singleton : m.Ring [a] ↔ m.next a = a ∧ m.prev a = a := by
  simp [Ring, Seg]

theorem Ring.next (h : m.Ring (a :: b :: l)) : m.next a = b := h.2.1

theorem Ring.prev (h : m.Ring (a :: b :: l)) : m.prev b = a := h.2.2.1

theorem Ring.next_self (h : m.Ring (a :: l)) : m.next a = a ↔ l = [] := by
  cases l with
  | nil => simp [(ring_singleton.mp h).1]
  | cons b l =>
    have ne : b ≠ a := fun eq => (List.nodup_cons.mp h.nodup).1 (by simp [eq])
    simp [h.next, ne]

theorem Seg.unique {e : ι} {k : List ι} (h : m.Seg a l e) (h' : m.Seg a k e) (out : e ∉ l)
    (out' : e ∉ k) : l = k := by
  induction l generalizing a k with
  | nil =>
    cases k with
    | nil => rfl
    | cons y k =>
      have eq : y = e := h'.1.symm.trans h.1
      exact absurd (by simp [eq]) out'
  | cons x l ih =>
    cases k with
    | nil =>
      have eq : x = e := h.1.symm.trans h'.1
      exact absurd (by simp [eq]) out
    | cons y k =>
      have eq : x = y := h.1.symm.trans h'.1
      subst eq
      rw [ih h.2.2 h'.2.2 (fun mem => out (List.mem_cons_of_mem _ mem))
        fun mem => out' (List.mem_cons_of_mem _ mem)]

theorem Ring.unique {k : List ι} (h : m.Ring (a :: l)) (h' : m.Ring (a :: k)) : l = k :=
  h.2.unique h'.2 (List.nodup_cons.mp h.1).1 (List.nodup_cons.mp h'.1).1

theorem Ring.rotate_one (h : m.Ring (a :: l)) : m.Ring (l ++ [a]) := by
  cases l with
  | nil => exact h
  | cons b l =>
    obtain ⟨nodup, hn, hp, rest⟩ := h
    exact ⟨(List.perm_append_singleton a (b :: l)).nodup_iff.mpr nodup,
      seg_append.mpr ⟨rest, hn, hp⟩⟩

theorem Ring.rotate (h : m.Ring (l ++ k)) : m.Ring (k ++ l) := by
  induction l generalizing k with
  | nil => simpa using h
  | cons a l ih =>
    have turned : m.Ring (l ++ (k ++ [a])) := by
      simpa using Ring.rotate_one (l := l ++ k) h
    simpa using ih turned

theorem Ring.prev_mid (h : m.Ring (l ++ a :: b :: k)) : m.prev b = a := by
  have turned : m.Ring (a :: b :: (k ++ l)) := by simpa using h.rotate
  exact turned.prev

theorem Ring.prev_last (h : m.Ring (a :: (l ++ [b]))) : m.prev a = b := by
  have turned : m.Ring (b :: a :: l) := by
    have := Ring.rotate (l := a :: l) (k := [b]) (by simpa using h)
    simpa using this
  exact turned.prev

theorem Ring.next_self_mid (h : m.Ring (l ++ x :: k)) : m.next x = x ↔ l = [] ∧ k = [] := by
  have turned : m.Ring (x :: (k ++ l)) := by simpa using h.rotate
  rw [turned.next_self, List.append_eq_nil_iff, and_comm]

theorem Ring.next_mem (h : m.Ring (a :: l)) : m.next a ∈ a :: l := by
  cases l with
  | nil => simp [(ring_singleton.mp h).1]
  | cons b l => simp [h.next]

theorem Ring.prev_mem (h : m.Ring (a :: l)) : m.prev a ∈ a :: l := by
  rcases List.eq_nil_or_concat' l with rfl | ⟨l, z, rfl⟩
  · simp [(ring_singleton.mp h).2]
  · have turned : m.Ring (z :: a :: l) := by
      have := Ring.rotate (l := a :: l) (k := [z]) (by simpa using h)
      simpa using this
    simp [turned.prev]

section Edit
variable [DecidableEq ι]

def setNext (m : Links ι) (x y : ι) : Links ι := { m with next := Function.update m.next x y }

def setPrev (m : Links ι) (x y : ι) : Links ι := { m with prev := Function.update m.prev x y }

def alone (m : Links ι) (x : ι) : Links ι := (m.setNext x x).setPrev x x

/-- `x` between two neighbours. -/
def insert (m : Links ι) (x before after : ι) : Links ι :=
  (((m.setPrev after x).setNext x after).setPrev x before).setNext before x

def join (m : Links ι) (before after : ι) : Links ι :=
  (m.setPrev after before).setNext before after

def add (m : Links ι) (x head : ι) : Links ι := m.insert x head (m.next head)

def addTail (m : Links ι) (x head : ι) : Links ι := m.insert x (m.prev head) head

/-- The neighbours of `x` are joined; its own links stay. -/
def unlink (m : Links ι) (x : ι) : Links ι := m.join (m.prev x) (m.next x)

def delInit (m : Links ι) (x : ι) : Links ι := (m.unlink x).alone x

def move (m : Links ι) (x head : ι) : Links ι := (m.unlink x).add x head

def moveTail (m : Links ι) (x head : ι) : Links ι := (m.unlink x).addTail x head

@[simp] theorem insert_next (m : Links ι) (x p n y : ι) :
    (m.insert x p n).next y = if y = p then x else if y = x then n else m.next y := by
  simp [insert, setNext, setPrev, Function.update_apply]

@[simp] theorem insert_prev (m : Links ι) (x p n y : ι) :
    (m.insert x p n).prev y = if y = x then p else if y = n then x else m.prev y := by
  simp [insert, setNext, setPrev, Function.update_apply]

@[simp] theorem join_next (m : Links ι) (p n y : ι) :
    (m.join p n).next y = if y = p then n else m.next y := by
  simp [join, setNext, setPrev, Function.update_apply]

@[simp] theorem join_prev (m : Links ι) (p n y : ι) :
    (m.join p n).prev y = if y = n then p else m.prev y := by
  simp [join, setNext, setPrev, Function.update_apply]

@[simp] theorem alone_next (m : Links ι) (x y : ι) :
    (m.alone x).next y = if y = x then x else m.next y := by
  simp [alone, setNext, setPrev, Function.update_apply]

@[simp] theorem alone_prev (m : Links ι) (x y : ι) :
    (m.alone x).prev y = if y = x then x else m.prev y := by
  simp [alone, setNext, setPrev, Function.update_apply]

theorem alone_agree (m : Links ι) (x : ι) : (m.alone x).Agree m (· ≠ x) := fun y ne => by
  simp [ne]

theorem alone_self (next : m.next x = x) (prev : m.prev x = x) : m.alone x = m := by
  obtain ⟨n, p⟩ := m
  simp only at next prev
  simp only [alone, setNext, setPrev]
  rw [Function.update_eq_self_iff.mpr next.symm, Function.update_eq_self_iff.mpr prev.symm]

theorem delInit_self (next : m.next x = x) (prev : m.prev x = x) : m.delInit x = m := by
  have same : ∀ f : ι → ι, f x = x → Function.update (Function.update f x x) x x = f := by
    intro f eq
    rw [Function.update_idem]
    exact Function.update_eq_self_iff.mpr eq.symm
  obtain ⟨n, p⟩ := m
  simp only at next prev
  simp only [delInit, unlink, join, alone, setNext, setPrev, next, prev]
  rw [same n next, same p prev]

theorem Ring.add (h : m.Ring (a :: l)) (out : x ∉ a :: l) :
    (m.add x a).Ring (a :: x :: l) := by
  have neX : x ≠ a := fun eq => out (by simp [eq])
  cases l with
  | nil =>
    obtain ⟨hn, -⟩ := ring_singleton.mp h
    refine ⟨by simp [neX.symm], ?_⟩
    simp [Links.add, Seg, hn, neX, neX.symm]
  | cons b l =>
    obtain ⟨nodup, hn, hp, rest⟩ := h
    have outB : x ≠ b := fun eq => out (by simp [eq])
    have first : a ∉ b :: l := (List.nodup_cons.mp nodup).1
    have second : b ∉ l := (List.nodup_cons.mp (List.nodup_cons.mp nodup).2).1
    refine ⟨List.nodup_cons.mpr ⟨?_, List.nodup_cons.mpr ⟨?_, (List.nodup_cons.mp nodup).2⟩⟩,
      ?_⟩
    · simpa [neX.symm] using first
    · exact fun mem => out (List.mem_cons_of_mem _ mem)
    · refine ⟨by simp [Links.add], by simp [Links.add], ?_, ?_, rest.congr ?_ ?_⟩
      · simp [Links.add, hn, neX]
      · simp [Links.add, hn, outB.symm]
      · intro y mem
        have neA : y ≠ a := fun eq => first (eq ▸ mem)
        have neX : y ≠ x := fun eq => out (eq ▸ List.mem_cons_of_mem _ mem)
        simp [Links.add, neA, neX]
      · intro y mem
        have neB : y ≠ b := by
          rcases List.mem_append.mp mem with mem | mem
          · exact fun eq => second (eq ▸ mem)
          · exact fun eq => first (by simp [← eq, List.mem_singleton.mp mem])
        have neX : y ≠ x := by
          rcases List.mem_append.mp mem with mem | mem
          · exact fun eq => out (eq ▸ List.mem_cons_of_mem _ (List.mem_cons_of_mem _ mem))
          · exact fun eq => out (by simp [← eq, List.mem_singleton.mp mem])
        simp [Links.add, hn, neB, neX]

theorem Ring.add_agree (h : m.Ring (a :: l)) (x : ι) :
    (m.add x a).Agree m (· ∉ x :: a :: l) := fun y out => by
  have neX : y ≠ x := fun eq => out (by simp [eq])
  have neA : y ≠ a := fun eq => out (by simp [eq])
  have neN : y ≠ m.next a := fun eq => out (List.mem_cons_of_mem _ (eq ▸ h.next_mem))
  simp [Links.add, neX, neA, neN]

theorem Ring.addTail (h : m.Ring (a :: l)) (out : x ∉ a :: l) :
    (m.addTail x a).Ring (a :: (l ++ [x])) := by
  rcases List.eq_nil_or_concat' l with rfl | ⟨l, z, rfl⟩
  · obtain ⟨hn, hp⟩ := ring_singleton.mp h
    have same : m.addTail x a = m.add x a := by rw [Links.addTail, Links.add, hn, hp]
    rw [same]
    exact h.add out
  · have turned : m.Ring (z :: a :: l) := by
      have := Ring.rotate (l := a :: l) (k := [z]) (by simpa using h)
      simpa using this
    have same : m.addTail x a = m.add x z := by
      rw [Links.addTail, Links.add, turned.next, turned.prev]
    have added := turned.add (x := x) (by
      simp only [List.mem_cons, List.mem_append, List.not_mem_nil, or_false] at out ⊢
      tauto)
    have := Ring.rotate (l := [z, x]) (k := a :: l) (by simpa using added)
    rw [same]
    simpa using this

theorem Ring.addTail_agree (h : m.Ring (a :: l)) (x : ι) :
    (m.addTail x a).Agree m (· ∉ x :: a :: l) := fun y out => by
  have neX : y ≠ x := fun eq => out (by simp [eq])
  have neA : y ≠ a := fun eq => out (by simp [eq])
  have neP : y ≠ m.prev a := fun eq => out (List.mem_cons_of_mem _ (eq ▸ h.prev_mem))
  simp [Links.addTail, neX, neA, neP]

theorem Ring.unlink_first (h : m.Ring (x :: l)) : (m.unlink x).Ring l := by
  cases l with
  | nil => trivial
  | cons b l =>
    obtain ⟨nodup, hn, hp, rest⟩ := h
    have nodup' := (List.nodup_cons.mp nodup).2
    have second : b ∉ l := (List.nodup_cons.mp nodup').1
    refine ⟨nodup', ?_⟩
    rcases List.eq_nil_or_concat' l with rfl | ⟨l, z, rfl⟩
    · obtain ⟨-, hp'⟩ := rest
      simp [unlink, Seg, hn, hp']
    · obtain ⟨front, hn', hp'⟩ := seg_append.mp rest
      have last : z ∉ b :: l := fun mem => by
        rw [← List.cons_append] at nodup'
        exact (List.nodup_append.mp nodup').2.2 z mem z (by simp) rfl
      refine seg_append.mpr ⟨front.congr (fun y mem => ?_) fun y mem => ?_, ?_⟩
      · have ne : y ≠ z := fun eq => last (eq ▸ mem)
        simp [unlink, hp', ne]
      · have ne : y ≠ b := fun eq => second (eq ▸ mem)
        simp [unlink, hn, ne]
      · simp [unlink, Seg, hn, hp']

theorem Ring.unlink (h : m.Ring (l ++ x :: k)) : (m.unlink x).Ring (l ++ k) := by
  have turned : m.Ring (x :: (k ++ l)) := by
    have := h.rotate
    simpa using this
  exact turned.unlink_first.rotate

theorem Ring.unlink_agree (h : m.Ring l) (mem : x ∈ l) :
    (m.unlink x).Agree m (· ∉ l) := by
  obtain ⟨before, after, rfl⟩ := List.append_of_mem mem
  have turned : m.Ring (x :: (after ++ before)) := by
    have := h.rotate
    simpa using this
  have inRing : ∀ y ∈ x :: (after ++ before), y ∈ before ++ x :: after := fun y mem => by
    simp only [List.mem_cons, List.mem_append] at mem ⊢
    tauto
  intro y out
  have neN : y ≠ m.next x := fun eq => out (inRing y (eq ▸ turned.next_mem))
  have neP : y ≠ m.prev x := fun eq => out (inRing y (eq ▸ turned.prev_mem))
  simp [Links.unlink, neN, neP]

theorem Ring.delInit (h : m.Ring (l ++ x :: k)) : (m.delInit x).Ring (l ++ k) := by
  have out : x ∉ l ++ k := (List.nodup_cons.mp (List.nodup_middle.mp h.nodup)).1
  exact h.unlink.congr fun y mem => alone_agree _ x y fun eq => out (eq ▸ mem)

theorem delInit_next_self (m : Links ι) (x : ι) :
    (m.delInit x).next x = x ∧ (m.delInit x).prev x = x := by
  simp [Links.delInit]

theorem Ring.delInit_agree (h : m.Ring l) (mem : x ∈ l) :
    (m.delInit x).Agree m (· ∉ l) := fun y out => by
  have ne : y ≠ x := fun eq => out (eq ▸ mem)
  obtain ⟨next, prev⟩ := (m.unlink x).alone_agree x y ne
  obtain ⟨next', prev'⟩ := h.unlink_agree mem y out
  exact ⟨next.trans next', prev.trans prev'⟩

end Edit

end Links

end EventHub.Library
