import Mathlib.Logic.Function.Basic
import Mathlib.Data.List.Nodup

/-! Nodes linked into lists, each into one at most. A list is known by its head, and a node
knows the list that it is in. -/

namespace EventHub.Library

@[ext] structure Placing (ι α : Type*) where
  list : ι → List α
  home : α → Option ι

namespace Placing
variable {ι α : Type*}

/-- Every node of a list is linked there, and only there. -/
structure Proper (p : Placing ι α) : Prop where
  mem : ∀ {x i}, x ∈ p.list i ↔ p.home x = some i
  nodup : ∀ i, (p.list i).Nodup

variable {p : Placing ι α} {x : α} {i j : ι}

theorem Proper.not_mem (h : p.Proper) (out : p.home x = none) (i : ι) : x ∉ p.list i := by
  intro mem
  rw [h.mem.mp mem] at out
  cases out

theorem Proper.not_mem_of_ne (h : p.Proper) (mem : x ∈ p.list i) (ne : j ≠ i) :
    x ∉ p.list j := fun mem' =>
  ne (Option.some.inj ((h.mem.mp mem').symm.trans (h.mem.mp mem)))

theorem proper_empty : Proper (⟨fun _ => [], fun _ => none⟩ : Placing ι α) :=
  ⟨by simp, fun _ => .nil⟩

variable [DecidableEq ι] [DecidableEq α]

def initHead (p : Placing ι α) (i : ι) : Placing ι α :=
  { p with list := Function.update p.list i [] }

def add (p : Placing ι α) (x : α) (i : ι) : Placing ι α :=
  ⟨Function.update p.list i (x :: p.list i), Function.update p.home x (some i)⟩

def delInit (p : Placing ι α) (x : α) : Placing ι α :=
  match p.home x with
  | none => p
  | some i => ⟨Function.update p.list i ((p.list i).erase x), Function.update p.home x none⟩

def moveTail (p : Placing ι α) (x : α) (i : ι) : Placing ι α :=
  let p := p.delInit x
  ⟨Function.update p.list i (p.list i ++ [x]), Function.update p.home x (some i)⟩

/-- The nodes of the list `i` go in front of the list `j`. -/
def splice (p : Placing ι α) (i j : ι) : Placing ι α where
  list := Function.update (Function.update p.list j (p.list i ++ p.list j)) i []
  home x := if p.home x = some i then some j else p.home x

def delAll (p : Placing ι α) (i : ι) : Placing ι α := (p.list i).foldl delInit p

omit [DecidableEq α] in
theorem initHead_eq (empty : p.list i = []) : p.initHead i = p := by
  rw [initHead, ← empty, Function.update_eq_self]

theorem Proper.add (h : p.Proper) (out : p.home x = none) : (p.add x i).Proper where
  mem {y j} := by
    simp only [Placing.add, Function.update_apply]
    by_cases at_i : j = i <;> by_cases at_x : y = x
    · simp [at_i, at_x]
    · simp [at_i, at_x, h.mem]
    · simp [at_i, at_x, h.not_mem out, Ne.symm at_i]
    · simp [at_i, at_x, h.mem]
  nodup j := by
    simp only [Placing.add, Function.update_apply]
    split
    · exact List.nodup_cons.mpr ⟨h.not_mem out i, h.nodup i⟩
    · exact h.nodup j

theorem delInit_of_home (at_i : p.home x = some i) :
    p.delInit x =
      ⟨Function.update p.list i ((p.list i).erase x), Function.update p.home x none⟩ := by
  rw [delInit, at_i]

theorem Proper.delInit (h : p.Proper) (x : α) : (p.delInit x).Proper := by
  cases at_i : p.home x with
  | none => rwa [Placing.delInit, at_i]
  | some i =>
    rw [delInit_of_home at_i]
    refine ⟨fun {y j} => ?_, fun j => ?_⟩
    · simp only [Function.update_apply]
      by_cases at_j : j = i <;> by_cases at_x : y = x
      · simp [at_j, at_x, (h.nodup i).mem_erase_iff]
      · simp [at_j, at_x, (h.nodup i).mem_erase_iff, h.mem]
      · simp [at_j, at_x, h.mem, at_i, Ne.symm at_j]
      · simp [at_j, at_x, h.mem]
    · simp only [Function.update_apply]
      split
      · exact (h.nodup i).erase x
      · exact h.nodup j

theorem delInit_home (p : Placing ι α) (x : α) :
    (p.delInit x).home = Function.update p.home x none := by
  cases at_i : p.home x with
  | none =>
    rw [delInit, at_i]
    exact (Function.update_eq_self_iff.mpr at_i.symm).symm
  | some i => rw [delInit_of_home at_i]

theorem Proper.delInit_list (h : p.Proper) (x : α) (j : ι) :
    (p.delInit x).list j = (p.list j).erase x := by
  cases at_i : p.home x with
  | none => rw [Placing.delInit, at_i, List.erase_of_not_mem (h.not_mem at_i j)]
  | some i =>
    rw [delInit_of_home at_i]
    dsimp only
    by_cases at_j : j = i
    · rw [at_j, Function.update_self]
    · rw [Function.update_of_ne at_j,
        List.erase_of_not_mem (h.not_mem_of_ne (h.mem.mpr at_i) at_j)]

theorem Proper.addTail (h : p.Proper) (out : p.home x = none) :
    Proper (⟨Function.update p.list i (p.list i ++ [x]),
      Function.update p.home x (some i)⟩ : Placing ι α) where
  mem {y j} := by
    refine Iff.trans ?_ (h.add out).mem
    simp only [Placing.add, Function.update_apply]
    split
    · rw [List.mem_append, List.mem_singleton, List.mem_cons, or_comm]
    · rfl
  nodup j := by
    have added := (h.add out (i := i)).nodup j
    simp only [Placing.add, Function.update_apply] at added ⊢
    split at added
    · next at_i =>
      rw [if_pos at_i]
      exact (List.perm_append_singleton x (p.list i)).nodup_iff.mpr added
    · next at_i =>
      rw [if_neg at_i]
      exact added

theorem Proper.moveTail (h : p.Proper) (x : α) (i : ι) : (p.moveTail x i).Proper :=
  (h.delInit x).addTail (by rw [delInit_home, Function.update_self])

theorem Proper.moveTail_list (h : p.Proper) (x : α) (i j : ι) :
    (p.moveTail x i).list j =
      if j = i then (p.list i).erase x ++ [x] else (p.list j).erase x := by
  simp only [Placing.moveTail, Function.update_apply, h.delInit_list]

omit [DecidableEq α] in
theorem Proper.splice (h : p.Proper) (ne : i ≠ j) : (p.splice i j).Proper where
  mem {y k} := by
    simp only [Placing.splice, Function.update_apply]
    by_cases at_i : k = i
    · subst at_i
      simp only [if_true, List.not_mem_nil, false_iff]
      split
      · simp [Ne.symm ne]
      · next other => exact other
    · by_cases at_j : k = j
      · subst at_j
        simp only [at_i, if_false, if_true, List.mem_append, h.mem]
        split
        · next home => simp [home]
        · next other => simp [other]
      · simp only [at_i, at_j, if_false, h.mem]
        split
        · next home => simp [home, Ne.symm at_i, Ne.symm at_j]
        · rfl
  nodup k := by
    simp only [Placing.splice, Function.update_apply]
    split
    · exact .nil
    · split
      · exact List.nodup_append.mpr ⟨h.nodup i, h.nodup j, fun x mem y mem' eq =>
          h.not_mem_of_ne mem (Ne.symm ne) (eq ▸ mem')⟩
      · exact h.nodup k

theorem Proper.foldl_delInit (h : p.Proper) {l : List α} (eq : p.list i = l) :
    l.foldl Placing.delInit p =
      ⟨Function.update p.list i [], fun x => if x ∈ l then none else p.home x⟩ := by
  induction l generalizing p with
  | nil =>
    have same : Function.update p.list i [] = p.list := by rw [← eq, Function.update_eq_self]
    simp [same]
  | cons y l ih =>
    have at_i : p.home y = some i := h.mem.mp (by simp [eq])
    have rest : (p.delInit y).list i = l := by
      rw [h.delInit_list, eq, List.erase_cons_head]
    rw [List.foldl_cons, ih (h.delInit y) rest, delInit_of_home at_i]
    rw [mk.injEq, Function.update_idem]
    refine ⟨rfl, funext fun x => ?_⟩
    by_cases at_y : x = y
    · simp [at_y]
    · simp [at_y]

theorem Proper.delAll_eq (h : p.Proper) (i : ι) :
    p.delAll i =
      ⟨Function.update p.list i [], fun x => if p.home x = some i then none else p.home x⟩ := by
  rw [delAll, h.foldl_delInit rfl]
  rw [mk.injEq]
  exact ⟨rfl, funext fun x => if_congr h.mem rfl rfl⟩

theorem Proper.delAll (h : p.Proper) (i : ι) : (p.delAll i).Proper := by
  rw [Placing.delAll]
  generalize p.list i = l
  induction l generalizing p with
  | nil => exact h
  | cons y l ih => exact ih (h.delInit y)

end Placing

end EventHub.Library
